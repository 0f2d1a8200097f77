import Handy.Codec

/-!
# Text

The operations of `Slice` that the HTTP messages are taken apart with, and the functions
of the C library that they rest on, over byte strings. A `Slice` that is eaten from is a
byte string, and the operation returns what it eats and what it leaves.

`isspace` and `tolower` are those of the C locale. `atoi` is `strtol` cut down to an `int`,
and `strtol` stops at the ends of its range.
-/

set_option autoImplicit false

namespace Handy

/-- `memcmp` compares bytes as unsigned numbers. -/
instance linearOrderUInt8 : LinearOrder UInt8 where
  le_refl := UInt8.le_refl
  le_trans _ _ _ := UInt8.le_trans
  le_antisymm _ _ := UInt8.le_antisymm
  le_total := UInt8.le_total
  lt_iff_le_not_ge first second := by
    simp only [UInt8.lt_iff_toNat_lt, UInt8.le_iff_toNat_le]
    omega
  toDecidableLE := inferInstance

/-- The bytes of a string literal. -/
def ascii (text : String) : Bytes := text.toList.map fun c => UInt8.ofNat c.toNat

/-- `c_str()`, read as a string again: what stands before the first zero. -/
def cstr (s : Bytes) : Bytes := s.takeWhile fun c => c ≠ 0

/-! ## Characters -/

def isSpace (c : UInt8) : Bool := (9 ≤ c && c ≤ 13) || c == 32

def isDigit (c : UInt8) : Bool := 48 ≤ c && c ≤ 57

/-- `tolower`. -/
def toLower (c : UInt8) : UInt8 := if 65 ≤ c ∧ c ≤ 90 then c + 32 else c

/-- The two characters that end a line. -/
def isEol (c : UInt8) : Bool := c == 10 || c == 13

/-! ## `Slice` -/

/-- `Slice::eatWord`. -/
def eatWord (s : Bytes) : Bytes × Bytes :=
  let word := s.dropWhile isSpace
  (word.takeWhile fun c => !isSpace c, word.dropWhile fun c => !isSpace c)

/-- `Slice::eatLine`. -/
def eatLine (s : Bytes) : Bytes × Bytes :=
  (s.takeWhile fun c => !isEol c, s.dropWhile fun c => !isEol c)

/-- `Slice::trimSpace`. -/
def trimSpace (s : Bytes) : Bytes := (s.dropWhile isSpace).rdropWhile isSpace

/-! ## Numbers -/

/-- The number that the leading digits stand for. -/
def leadingNumber (s : Bytes) : ℕ :=
  Nat.ofDigits 10 ((s.takeWhile isDigit).map fun c => c.toNat - 48).reverse

/-- The number behind its sign. -/
def skipSign (s : Bytes) : Bytes := if s.head? = some 45 ∨ s.head? = some 43 then s.tail else s

/-- `strtol(s, NULL, 10)`. -/
def strtol (s : Bytes) : ℤ :=
  let number := s.dropWhile isSpace
  if number.head? = some 45 then max (-(2 ^ 63)) (-(leadingNumber (skipSign number) : ℤ))
  else min (2 ^ 63 - 1) (leadingNumber (skipSign number) : ℤ)

/-- `atoi`. -/
def atoi (s : Bytes) : ℤ := toInt32 (strtol s)

/-- A number as `%lu` prints it. -/
def decimal (n : ℕ) : Bytes :=
  if n = 0 then [48] else (Nat.digits 10 n).reverse.map fun digit => UInt8.ofNat (48 + digit)

/-- A number as `%d` prints it. -/
def decimalInt (n : ℤ) : Bytes := if n < 0 then 45 :: decimal n.natAbs else decimal n.natAbs

/-! ## Lines and words -/

/-- A non-empty string without white space. -/
def IsWord (s : Bytes) : Prop := s ≠ [] ∧ ∀ c ∈ s, isSpace c = false

instance (s : Bytes) : Decidable (IsWord s) := inferInstanceAs (Decidable (_ ∧ _))

/-- A string that neither begins nor ends with white space. -/
def Trimmed (s : Bytes) : Prop := s.head?.all (!isSpace ·) ∧ s.getLast?.all (!isSpace ·)

instance (s : Bytes) : Decidable (Trimmed s) := inferInstanceAs (Decidable (_ ∧ _))

theorem isEol_isSpace {c : UInt8} (eol : isEol c = true) : isSpace c = true := by
  simp only [isEol, Bool.or_eq_true, beq_iff_eq] at eol
  rcases eol with rfl | rfl <;> rfl

theorem IsWord.plain {s : Bytes} (word : IsWord s) : ∀ c ∈ s, isEol c = false := by
  intro c member
  refine Bool.eq_false_iff.mpr fun eol => ?_
  exact Bool.false_ne_true ((word.2 c member).symm.trans (isEol_isSpace eol))

/-- The pieces that `eatLine` makes. -/
theorem eatLine_append (s : Bytes) : (eatLine s).1 ++ (eatLine s).2 = s :=
  List.takeWhile_append_dropWhile

theorem dropWhile_space_word {word : Bytes} (isWord : IsWord word) (rest : Bytes) :
    (word ++ rest).dropWhile isSpace = word ++ rest := by
  obtain ⟨nonempty, solid⟩ := isWord
  cases word with
  | nil => exact absurd rfl nonempty
  | cons c tail => simp [solid c List.mem_cons_self]

theorem eatWord_space {c : UInt8} (space : isSpace c = true) (s : Bytes) :
    eatWord (c :: s) = eatWord s := by
  simp [eatWord, space]

theorem eatWord_word {word : Bytes} (isWord : IsWord word) {c : UInt8} (space : isSpace c = true)
    (rest : Bytes) : eatWord (word ++ c :: rest) = (word, c :: rest) := by
  have all : ∀ c ∈ word, (!isSpace c) = true := fun c member => by rw [isWord.2 c member]; rfl
  rw [eatWord, dropWhile_space_word isWord, List.takeWhile_append_of_pos all,
    List.dropWhile_append_of_pos all]
  simp [space]

theorem eatWord_last {word : Bytes} (isWord : IsWord word) : eatWord word = (word, []) := by
  have all : ∀ c ∈ word, (!isSpace c) = true := fun c member => by rw [isWord.2 c member]; rfl
  have skip := dropWhile_space_word isWord []
  rw [List.append_nil] at skip
  rw [eatWord, skip, List.takeWhile_eq_self_iff.mpr all, List.dropWhile_eq_nil_iff.mpr all]

theorem trimSpace_space {c : UInt8} (space : isSpace c = true) (s : Bytes) :
    trimSpace (c :: s) = trimSpace s := by
  simp [trimSpace, space]

theorem trimSpace_trimmed {s : Bytes} (trimmed : Trimmed s) : trimSpace s = s := by
  obtain ⟨first, last⟩ := trimmed
  have skip : s.dropWhile isSpace = s := by
    cases s with
    | nil => rfl
    | cons c tail => simpa using first
  rw [trimSpace, skip, List.rdropWhile_eq_self_iff]
  intro nonempty
  rw [List.getLast?_eq_getLast_of_ne_nil nonempty] at last
  simpa using last

/-! ## Reading numbers back -/

/-- A digit as a character, and back. -/
theorem digit_back {digit : ℕ} (small : digit < 10) :
    isDigit (UInt8.ofNat (48 + digit)) = true ∧ (UInt8.ofNat (48 + digit)).toNat - 48 = digit := by
  interval_cases digit <;> decide

theorem isDigit_decimal {n : ℕ} : ∀ c ∈ decimal n, isDigit c = true := by
  unfold decimal
  split_ifs with zero
  · simp [isDigit]
  · intro c member
    obtain ⟨digit, among, rfl⟩ := List.mem_map.mp member
    exact (digit_back (Nat.digits_lt_base (by norm_num) (List.mem_reverse.mp among))).1

theorem decimal_ne_nil (n : ℕ) : decimal n ≠ [] := by
  unfold decimal
  split_ifs with zero
  · exact List.cons_ne_nil _ _
  · simpa [Nat.digits_eq_nil_iff_eq_zero] using zero

theorem ofDigits_decimal (n : ℕ) :
    Nat.ofDigits 10 ((decimal n).map fun c => c.toNat - 48).reverse = n := by
  unfold decimal
  split_ifs with zero
  · rw [zero]
    rfl
  · have values : (Nat.digits 10 n).map (fun digit => (UInt8.ofNat (48 + digit)).toNat - 48) =
        (Nat.digits 10 n).map id :=
      List.map_congr_left fun digit among => (digit_back (Nat.digits_lt_base (by norm_num) among)).2
    rw [List.map_map, ← List.map_reverse, List.reverse_reverse]
    exact (congrArg (Nat.ofDigits 10) (values.trans (List.map_id _))).trans (Nat.ofDigits_digits 10 n)

/-- What follows the digits. -/
def EndsNumber (rest : Bytes) : Prop := rest.head?.all (!isDigit ·) = true

theorem leadingNumber_decimal (n : ℕ) {rest : Bytes} (ends : EndsNumber rest) :
    leadingNumber (decimal n ++ rest) = n := by
  have none : rest.takeWhile isDigit = [] := by
    cases rest with
    | nil => rfl
    | cons c tail => simpa [EndsNumber] using ends
  rw [leadingNumber, List.takeWhile_append_of_pos isDigit_decimal, none, List.append_nil,
    ofDigits_decimal]

theorem isDigit_apart {c : UInt8} (digit : isDigit c = true) :
    isSpace c = false ∧ c ≠ 45 ∧ c ≠ 43 := by
  simp only [isDigit, isSpace, Bool.and_eq_true, Bool.or_eq_false_iff, Bool.and_eq_false_iff,
    decide_eq_true_eq, decide_eq_false_iff_not, beq_eq_false_iff_ne, ne_eq, UInt8.le_iff_toNat_le,
    ← UInt8.toNat_inj, UInt8.reduceToNat] at digit ⊢
  omega

theorem strtol_decimalInt {n : ℤ} (lower : -(2 ^ 63) ≤ n) (upper : n < 2 ^ 63) {rest : Bytes}
    (ends : EndsNumber rest) : strtol (decimalInt n ++ rest) = n := by
  have read := leadingNumber_decimal n.natAbs ends
  unfold decimalInt
  split_ifs with negative
  · rw [strtol, List.cons_append, List.dropWhile_cons_of_neg (by decide)]
    simp only [skipSign, List.head?_cons, true_or, if_true, List.tail_cons, read]
    omega
  · obtain ⟨c, tail, shape⟩ := List.exists_cons_of_ne_nil (decimal_ne_nil n.natAbs)
    have digit : isDigit c = true := isDigit_decimal c (by rw [shape]; exact List.mem_cons_self)
    obtain ⟨solid, minus, plus⟩ := isDigit_apart digit
    rw [shape, List.cons_append] at read ⊢
    rw [strtol, List.dropWhile_cons_of_neg (by simp [solid])]
    simp only [skipSign, List.head?_cons, Option.some.injEq, minus, plus, or_self, if_false, read]
    omega

/-- **`atoi` reads back what `%d` prints**, whatever follows that is not a digit. -/
theorem atoi_decimalInt {n : ℤ} (lower : -(2 ^ 31) ≤ n) (upper : n < 2 ^ 31) {rest : Bytes}
    (ends : EndsNumber rest) : atoi (decimalInt n ++ rest) = n := by
  rw [atoi, strtol_decimalInt (by omega) (by omega) ends, toInt32]
  exact Int.bmod_eq_of_le (by omega) (by omega)

theorem atoi_decimal {n : ℕ} (small : n < 2 ^ 31) : atoi (decimal n) = n := by
  have read : atoi (decimalInt n ++ []) = n := atoi_decimalInt (by omega) (by omega) rfl
  rwa [List.append_nil, decimalInt, if_neg (by omega), Int.natAbs_natCast] at read

/-! ## Where `atoi` stops -/

/-- A character that no number contains and that does not stand before one. -/
def stopsNumber (c : UInt8) : Bool := !isSpace c && !isDigit c && c != 45 && c != 43

theorem takeWhile_append_of_mem {α : Type} {p : α → Bool} {s : List α} {c : α} (member : c ∈ s)
    (fails : p c = false) (rest : List α) : (s ++ rest).takeWhile p = s.takeWhile p := by
  have short : (s.takeWhile p).length ≠ s.length := by
    intro same
    have whole := List.takeWhile_eq_self_iff.mp ((List.takeWhile_prefix p).eq_of_length same) c member
    rw [fails] at whole
    exact Bool.false_ne_true whole
  rw [List.takeWhile_append, if_neg short]

theorem dropWhile_append_of_mem {α : Type} {p : α → Bool} {s : List α} {c : α} (member : c ∈ s)
    (fails : p c = false) (rest : List α) :
    (s ++ rest).dropWhile p = s.dropWhile p ++ rest ∧ c ∈ s.dropWhile p := by
  have kept : c ∈ s.dropWhile p := by
    have split := List.takeWhile_append_dropWhile (p := p) (l := s)
    rw [← split] at member
    rcases List.mem_append.mp member with front | back
    · have passes := List.mem_takeWhile_imp front
      rw [fails] at passes
      cases passes
    · exact back
  rw [List.dropWhile_append, if_neg]
  · exact ⟨rfl, kept⟩
  · intro empty
    rw [List.isEmpty_iff.mp empty] at kept
    cases kept

theorem leadingNumber_append {s : Bytes} {c : UInt8} (member : c ∈ s) (fails : isDigit c = false)
    (rest : Bytes) : leadingNumber (s ++ rest) = leadingNumber s := by
  rw [leadingNumber, takeWhile_append_of_mem member fails, leadingNumber]

/-- **`atoi` does not look behind a character that stops it.** -/
theorem atoi_append {s : Bytes} {c : UInt8} (member : c ∈ s) (stops : stopsNumber c = true)
    (rest : Bytes) : atoi (s ++ rest) = atoi s := by
  simp only [stopsNumber, Bool.and_eq_true, Bool.not_eq_true', bne_iff_ne, ne_eq] at stops
  obtain ⟨⟨⟨solid, other⟩, minus⟩, plus⟩ := stops
  obtain ⟨skip, kept⟩ := dropWhile_append_of_mem member solid rest
  have first : (s.dropWhile isSpace ++ rest).head? = (s.dropWhile isSpace).head? :=
    List.head?_append_of_ne_nil _ (List.ne_nil_of_mem kept)
  -- A sign is not the character in question, so that is found behind it.
  have number : leadingNumber (skipSign (s.dropWhile isSpace ++ rest)) =
      leadingNumber (skipSign (s.dropWhile isSpace)) := by
    rw [skipSign, skipSign, first]
    split_ifs with signed
    · obtain ⟨d, tail, shape⟩ := List.exists_cons_of_ne_nil (List.ne_nil_of_mem kept)
      rw [shape] at signed kept ⊢
      have apart : c ≠ d := by
        rintro rfl
        simp [minus, plus] at signed
      exact leadingNumber_append ((List.mem_cons.mp kept).resolve_left apart) other rest
    · exact leadingNumber_append kept other rest
  rw [atoi, atoi, strtol, strtol, skip]
  simp only [first, number]

end Handy
