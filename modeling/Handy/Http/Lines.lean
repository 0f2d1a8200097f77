import Handy.Http

/-!
# Header lines

What the loop over the header lines does with one line. A line is taken apart into the white
space before its name, the name and what follows it, and a line that is put together from
such parts is taken apart into them (`HttpMsg.splitLine_parts`). The loop stores a line that
is named, and ends at the first one that is not.
-/

set_option autoImplicit false

namespace Handy

/-- What follows a piece that was taken as long as `p` held. -/
def Stops (p : UInt8 → Bool) (rest : Bytes) : Prop := rest.head?.all (!p ·) = true

theorem stops_dropWhile (p : UInt8 → Bool) (s : Bytes) : Stops p (s.dropWhile p) := by
  cases shape : s.dropWhile p with
  | nil => rfl
  | cons c rest =>
      have fails := List.head?_dropWhile_not p s
      rw [shape] at fails
      simpa [Stops] using fails

theorem takeWhile_stops {p : UInt8 → Bool} {s rest : Bytes} (all : ∀ c ∈ s, p c = true)
    (stops : Stops p rest) : (s ++ rest).takeWhile p = s ∧ (s ++ rest).dropWhile p = rest := by
  rw [List.takeWhile_append_of_pos all, List.dropWhile_append_of_pos all]
  cases rest with
  | nil => simp
  | cons c rest =>
      have fails : p c = false := by simpa [Stops] using stops
      simp [fails]

namespace HttpMsg

/-- A line that is put together from its parts. -/
theorem splitLine_parts {margin name rest : Bytes} (blank : ∀ c ∈ margin, isSpace c = true)
    (word : IsWord name) (stops : Stops (fun c => !isSpace c) rest) :
    splitLine (margin ++ name ++ rest) = ⟨margin, name, rest⟩ := by
  have solid : ∀ c ∈ name, (!isSpace c) = true := fun c member => by rw [word.2 c member]; rfl
  have outside : Stops isSpace (name ++ rest) := by
    obtain ⟨c, tail, rfl⟩ := List.exists_cons_of_ne_nil word.1
    simpa [Stops] using solid c List.mem_cons_self
  obtain ⟨front, back⟩ := takeWhile_stops blank outside
  obtain ⟨first, last⟩ := takeWhile_stops solid stops
  rw [splitLine, eatWord, List.append_assoc, front, back]
  simp only [first, last]

/-- The parts of a line. -/
theorem splitLine_spec (ln : Bytes) : ln = (splitLine ln).margin ++ (splitLine ln).name ++
      (splitLine ln).rest ∧
    (∀ c ∈ (splitLine ln).margin, isSpace c = true) ∧
    (∀ c ∈ (splitLine ln).name, isSpace c = false) ∧
    Stops (fun c => !isSpace c) (splitLine ln).rest := by
  refine ⟨?_, fun c member => List.mem_takeWhile_imp member, fun c member => ?_,
    stops_dropWhile _ _⟩
  · simp only [splitLine, eatWord, List.append_assoc, List.takeWhile_append_dropWhile]
  · simpa using List.mem_takeWhile_imp member

/-- A line whose name has been lower-cased. -/
def lowerLine (ln : Bytes) : Bytes :=
  (splitLine ln).margin ++ (splitLine ln).name.map toLower ++ (splitLine ln).rest

theorem eatLine_stops {ln rest : Bytes} (plain : ∀ c ∈ ln, isEol c = false)
    (stops : Stops (fun c => !isEol c) rest) : eatLine (ln ++ rest) = (ln, rest) := by
  have all : ∀ c ∈ ln, (!isEol c) = true := fun c member => by rw [plain c member]; rfl
  obtain ⟨front, back⟩ := takeWhile_stops all stops
  rw [eatLine, front, back]

theorem eatLine_spec (s : Bytes) : (∀ c ∈ (eatLine s).1, isEol c = false) ∧
    Stops (fun c => !isEol c) (eatLine s).2 := by
  refine ⟨fun c member => ?_, stops_dropWhile _ _⟩
  simpa using List.mem_takeWhile_imp member

/-- The first byte is none of a name. -/
theorem head?_decodeLines (fuel : ℕ) (headers : StringMap) (req : Bytes) :
    (decodeLines fuel headers req).buf.head? = req.head? := by
  fun_cases decodeLines fuel headers req with
  | _ => rfl

/-- A line that has a name with a colon, and a value. -/
def Named (ln : Bytes) : Prop := (splitLine ln).name ≠ [] ∧ trimSpace (splitLine ln).rest ≠ [] ∧
  (splitLine ln).name.getLast? = some 58

theorem decodeLines_named {ln : Bytes} (named : Named ln) (fuel : ℕ) (headers : StringMap)
    (c d : UInt8) {req rest : Bytes} (shape : eatLine req = (ln, rest)) :
    let tail := decodeLines fuel (headers.set ((splitLine ln).name.map toLower).dropLast
      (trimSpace (splitLine ln).rest)) rest
    decodeLines (fuel + 1) headers (c :: d :: req) =
      ⟨tail.accepted, tail.headers, c :: d :: (lowerLine ln ++ tail.buf)⟩ := by
  unfold Named at named
  simp only [decodeLines, shape, lowerLine]
  rw [if_pos named]

theorem decodeLines_unnamed {ln : Bytes} (unnamed : ¬ Named ln) (fuel : ℕ) (headers : StringMap)
    (c d : UInt8) {req rest : Bytes} (shape : eatLine req = (ln, rest)) :
    decodeLines (fuel + 1) headers (c :: d :: req) =
      ⟨decide ((splitLine ln).name = [] ∧ trimSpace (splitLine ln).rest = [] ∧ rest = []), headers,
        c :: d :: req⟩ := by
  unfold Named at unnamed
  simp only [decodeLines, shape]
  rw [if_neg unnamed]
  split_ifs with empty <;> simp [empty]

end HttpMsg

end Handy
