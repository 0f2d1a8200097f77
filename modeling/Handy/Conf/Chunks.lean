import Handy.Conf

/-!
# Lines of any length

`Conf::parse` reads with `fgets` into a buffer of 16 KiB, so it sees a longer line in pieces
and takes each for a line. Here the pieces are compared with the lines of the file.

A line with its newline is one piece if it fits (`pieces_short`), and the newline makes no
difference to what the line means (`kind_newline`). A line of exactly 16383 characters leaves
its newline for a piece of its own, which is blank but counted. So the lengths of the lines
decide whether all files with them are read line by line (`parse_by_lines_iff`).
-/

set_option autoImplicit false

namespace Handy

namespace Conf

/-! ## Pieces and lines -/

/-- What successive calls of `fgets` return. -/
def pieces (size : ℕ) : ℕ → Bytes → List Bytes
  | 0, _ => []
  | fuel + 1, file =>
      match fgets size file with
      | none => []
      | some (ln, file) => ln :: pieces size fuel file

/-- The lines of a file, without their newlines. -/
def physicalLines : Bytes → List Bytes
  | [] => []
  | c :: file =>
      if c = 10 then [] :: physicalLines file
      else
        match physicalLines file with
        | [] => [[c]]
        | ln :: more => (c :: ln) :: more

/-- The rules for a line are applied to lines one after the other, up to an error. -/
def runLines : List Bytes → Parsing → Parsing
  | [], s => s
  | ln :: more, s => if s.err then s else runLines more (parseLine (cstr ln) s)

/-- What `Conf::parse` returns, and the values. -/
def Parsing.outcome (s : Parsing) : ℤ × OrderedMap Bytes (List Bytes) :=
  (if s.err then s.lineno else 0, s.values)

/-- `Conf::parse`, if it read line by line. -/
def parseByLines (fopen : Bytes → Option Bytes) (conf : Conf) (filename : Bytes) : ℤ × Conf :=
  let conf := { conf with filename := filename }
  match fopen (cstr conf.filename) with
  | none => (-1, conf)
  | some file =>
      let s := runLines (physicalLines file) (.start conf.values)
      (s.outcome.1, { conf with values := s.outcome.2 })

theorem runLines_of_err {s : Parsing} (stopped : s.err = true) (lns : List Bytes) :
    runLines lns s = s := by
  cases lns with
  | nil => rfl
  | cons ln more => rw [runLines, if_pos stopped]

theorem runLines_append (lns more : List Bytes) (s : Parsing) :
    runLines (lns ++ more) s = runLines more (runLines lns s) := by
  induction lns generalizing s with
  | nil => rfl
  | cons ln lns ih =>
      by_cases stopped : s.err = true
      · rw [runLines_of_err stopped, runLines_of_err stopped, runLines_of_err stopped]
      · rw [List.cons_append, runLines, runLines, if_neg stopped, if_neg stopped, ih]

/-- The loop of `Conf::parse` goes through the pieces. -/
theorem parseLoop_eq (fuel : ℕ) (file : Bytes) (s : Parsing) :
    parseLoop fuel file s = runLines (pieces MAX_LINE fuel file) s := by
  induction fuel generalizing file s with
  | zero => rfl
  | succ fuel ih =>
      by_cases stopped : s.err = true
      · rw [runLines_of_err stopped, parseLoop, if_pos stopped]
      · rw [parseLoop, if_neg stopped, pieces]
        cases read : fgets MAX_LINE file with
        | none => rfl
        | some result =>
            obtain ⟨ln, rest⟩ := result
            simp only [runLines, if_neg stopped]
            exact ih rest (parseLine (cstr ln) s)

/-- **A file is its last line, or a line, a newline and a file.** -/
theorem file_induction {motive : Bytes → Prop} (nil : motive [])
    (last : ∀ ln, ln ≠ [] → 10 ∉ ln → motive ln)
    (cons : ∀ ln file, 10 ∉ ln → motive file → motive (ln ++ 10 :: file)) (file : Bytes) :
    motive file := by
  induction length : file.length using Nat.strong_induction_on generalizing file with
  | _ n ih =>
      by_cases ended : 10 ∈ file
      · have front : 10 ∉ file.takeWhile (· ≠ 10) := fun member => by
          simpa using List.mem_takeWhile_imp member
        have whole := List.takeWhile_append_dropWhile (p := fun c => decide (c ≠ 10)) (l := file)
        rw [dropWhile_eq_cons ended] at whole
        have total := congrArg List.length whole
        rw [List.length_append, List.length_cons] at total
        rw [← whole]
        exact cons _ _ front (ih _ (by omega) _ rfl)
      · by_cases empty : file = []
        · rw [empty]
          exact nil
        · exact last file empty ended

theorem physicalLines_cons {ln : Bytes} (one : 10 ∉ ln) (file : Bytes) :
    physicalLines (ln ++ 10 :: file) = ln :: physicalLines file := by
  induction ln with
  | nil => simp [physicalLines]
  | cons c ln ih =>
      obtain ⟨differs, later⟩ := not_or.mp (List.mem_cons.not.mp one)
      rw [List.cons_append, physicalLines, if_neg (Ne.symm differs), ih later]

theorem physicalLines_last {ln : Bytes} (some_char : ln ≠ []) (one : 10 ∉ ln) :
    physicalLines ln = [ln] := by
  induction ln with
  | nil => exact absurd rfl some_char
  | cons c ln ih =>
      obtain ⟨differs, later⟩ := not_or.mp (List.mem_cons.not.mp one)
      rw [physicalLines, if_neg (Ne.symm differs)]
      by_cases empty : ln = []
      · rw [empty]
        rfl
      · rw [ih empty later]

/-! ## What `fgets` returns -/

section Fgets

variable {size : ℕ} {ln file : Bytes}

theorem throughNewline_cons (one : 10 ∉ ln) (file : Bytes) :
    throughNewline (ln ++ 10 :: file) = ln ++ [10] := by
  have passed : ∀ c ∈ ln, decide (c ≠ 10) = true := fun c member => by
    simpa using fun same : c = 10 => one (same ▸ member)
  rw [throughNewline, List.takeWhile_append_of_pos passed, List.dropWhile_append_of_pos passed]
  simp

theorem throughNewline_last (one : 10 ∉ ln) : throughNewline ln = ln := by
  have passed : ∀ c ∈ ln, decide (c ≠ 10) = true := fun c member => by
    simpa using fun same : c = 10 => one (same ▸ member)
  rw [throughNewline, List.takeWhile_eq_self_iff.mpr passed, List.dropWhile_eq_nil_iff.mpr passed]
  exact List.append_nil ln

/-- A line that fits in the buffer with its newline. -/
theorem fgets_short (one : 10 ∉ ln) (fits : ln.length + 1 < size) (file : Bytes) :
    fgets size (ln ++ 10 :: file) = some (ln ++ [10], file) := by
  have some_char : ln ++ 10 :: file ≠ [] := by simp
  have room : (ln ++ 10 :: file).take (size - 1) = ln ++ 10 :: file.take (size - 1 - ln.length - 1) := by
    obtain ⟨more, enough⟩ : ∃ more, size - 1 - ln.length = more + 1 := ⟨size - 1 - ln.length - 1, by omega⟩
    rw [List.take_append, List.take_of_length_le (by omega), enough, List.take_succ_cons]
    rfl
  rw [fgets, if_neg some_char, room, throughNewline_cons one]
  simp only [List.length_append, List.length_singleton]
  rw [← List.singleton_append (l := file), ← List.append_assoc, List.drop_left' (by simp)]

/-- The last line, if it fits. -/
theorem fgets_last (some_char : ln ≠ []) (one : 10 ∉ ln) (fits : ln.length < size) :
    fgets size ln = some (ln, []) := by
  rw [fgets, if_neg some_char, List.take_of_length_le (by omega), throughNewline_last one]
  simp only [List.drop_length]

/-- The front of a line that does not fit. -/
theorem fgets_long (one : 10 ∉ ln) (positive : 1 < size) (long : size - 1 ≤ ln.length)
    (file : Bytes) : fgets size (ln ++ file) = some (ln.take (size - 1), ln.drop (size - 1) ++ file) := by
  have some_char : ln ++ file ≠ [] := fun none => by
    rw [(List.append_eq_nil_iff.mp none).1] at long
    simp at long
    omega
  have front : 10 ∉ ln.take (size - 1) := fun member => one (List.mem_of_mem_take member)
  rw [fgets, if_neg some_char, List.take_append_of_le_length long, throughNewline_last front]
  simp only [List.length_take, Nat.min_eq_left long, List.drop_append_of_le_length long]

/-- A call takes something from a file. -/
theorem fgets_length (positive : 1 < size) {rest : Bytes} (read : fgets size file = some (ln, rest)) :
    rest.length < file.length := by
  unfold fgets at read
  split_ifs at read with empty
  cases read
  have some_char : 0 < file.length := List.length_pos_iff.mpr empty
  have taken : 0 < (throughNewline (file.take (size - 1))).length := by
    cases file with
    | nil => exact absurd rfl empty
    | cons c file =>
        obtain ⟨more, enough⟩ : ∃ more, size - 1 = more + 1 := ⟨size - 2, by omega⟩
        rw [enough, List.take_succ_cons, throughNewline]
        by_cases newline : c = 10
        · subst newline
          simp
        · rw [List.takeWhile_cons_of_pos (by simpa using newline)]
          simp
  rw [List.length_drop]
  omega

/-- Fuel beyond the length of the file makes no difference. -/
theorem pieces_fuel (positive : 1 < size) {fuel more : ℕ} (enough : file.length ≤ fuel)
    (enough' : file.length ≤ more) : pieces size fuel file = pieces size more file := by
  induction fuel generalizing more file with
  | zero =>
      have empty : file = [] := List.length_eq_zero_iff.mp (Nat.le_zero.mp enough)
      subst empty
      cases more <;> rfl
  | succ fuel ih =>
      cases more with
      | zero =>
          have empty : file = [] := List.length_eq_zero_iff.mp (Nat.le_zero.mp enough')
          subst empty
          rfl
      | succ more =>
          rw [pieces, pieces]
          cases read : fgets size file with
          | none => rfl
          | some result =>
              obtain ⟨ln, rest⟩ := result
              have shorter := fgets_length positive read
              have same : pieces size fuel rest = pieces size more rest := ih (by omega) (by omega)
              simp only [same]

/-- One call of `fgets`. -/
theorem pieces_cons (positive : 1 < size) {rest : Bytes} (read : fgets size file = some (ln, rest)) :
    pieces size file.length file = ln :: pieces size rest.length rest := by
  have shorter := fgets_length positive read
  obtain ⟨fuel, same⟩ : ∃ fuel, file.length = fuel + 1 := ⟨file.length - 1, by omega⟩
  rw [same, pieces, read]
  simp only [pieces_fuel positive (by omega : rest.length ≤ fuel) le_rfl]

end Fgets

/-! ## The newline at the end of a line -/

section Newline

variable {s : Bytes}

theorem dropWhile_newline (visible : ∃ c ∈ s, isSpace c = false) :
    (s ++ [10]).dropWhile isSpace = s.dropWhile isSpace ++ [10] := by
  obtain ⟨c, member, space⟩ := visible
  exact (dropWhile_append_of_mem member space [10]).1

theorem dropWhile_blank (blank : ¬ ∃ c ∈ s, isSpace c = false) :
    s.dropWhile isSpace = [] ∧ (s ++ [10]).dropWhile isSpace = [] := by
  have spaces : ∀ c ∈ s, isSpace c = true := fun c member => by
    by_contra visible
    exact blank ⟨c, member, by simpa using visible⟩
  refine ⟨List.dropWhile_eq_nil_iff.mpr spaces, List.dropWhile_eq_nil_iff.mpr fun c member => ?_⟩
  rcases List.mem_append.mp member with earlier | newline
  · exact spaces c earlier
  · rw [List.mem_singleton.mp newline]
    rfl

theorem valueOf_newline (s : Bytes) : valueOf (s ++ [10]) = valueOf s := by
  unfold valueOf
  by_cases visible : ∃ c ∈ s, isSpace c = false
  · rw [dropWhile_newline visible]
    by_cases ends : ∃ c ∈ s.dropWhile isSpace, plain c = false
    · obtain ⟨c, member, stops⟩ := ends
      exact takeWhile_append_of_mem member stops [10]
    · have all : ∀ c ∈ s.dropWhile isSpace, plain c = true := fun c member => by
        by_contra stops
        exact ends ⟨c, member, by simpa using stops⟩
      rw [List.takeWhile_append_of_pos all, List.takeWhile_eq_self_iff.mpr all]
      exact List.append_nil _
  · obtain ⟨empty, empty'⟩ := dropWhile_blank visible
    rw [empty, empty']

theorem splitAt_newline (sep : UInt8) (visible : isSpace sep = false) (s : Bytes) :
    splitAt sep (s ++ [10]) = splitAt sep s := by
  have other : sep ≠ 10 := by
    rintro rfl
    exact absurd visible (by decide)
  unfold splitAt
  by_cases member : sep ∈ s
  · have stops : (decide (sep ≠ sep)) = false := by simp
    rw [if_pos (List.mem_append_left _ member), if_pos member,
      takeWhile_append_of_mem (p := (· ≠ sep)) member stops,
      (dropWhile_append_of_mem (p := (· ≠ sep)) member stops [10]).1, dropWhile_eq_cons member,
      List.cons_append, List.tail_cons, List.tail_cons, valueOf_newline]
  · have missing : sep ∉ s ++ [10] := fun inside => by
      rcases List.mem_append.mp inside with earlier | newline
      · exact member earlier
      · exact other (List.mem_singleton.mp newline)
    rw [if_neg missing, if_neg member]

/-- **The newline makes no difference to what a line means.** -/
theorem kind_newline (s : Bytes) : kind (s ++ [10]) = kind s := by
  by_cases visible : ∃ c ∈ s, isSpace c = false
  · obtain ⟨c, member, space⟩ := visible
    have text := dropWhile_newline ⟨c, member, space⟩
    have some_text : s.dropWhile isSpace ≠ [] := fun none => by
      have := List.dropWhile_eq_nil_iff.mp none c member
      rw [space] at this
      cases this
    obtain ⟨first, rest, text_eq⟩ := List.exists_cons_of_ne_nil some_text
    have head : (s ++ [10]).headD 0 = s.headD 0 := by
      cases s with
      | nil => cases member
      | cons c s => rfl
    have closed : 93 ∈ rest ++ [10] ↔ 93 ∈ rest := by simp
    unfold kind
    simp only [text, text_eq, List.cons_append, List.headD_cons, List.tail_cons, head, closed,
      splitAt_newline 61 (by decide) s, splitAt_newline 58 (by decide) s]
    have blank : ∀ c ∈ ([10] : Bytes), isSpace c = true := by simp; rfl
    have stripped : LineScanner.rstrip (first :: (rest ++ [10])) = LineScanner.rstrip (first :: rest) :=
      LineScanner.rstrip_append_spaces (s := first :: rest) blank
    rw [stripped]
    by_cases bracket : 93 ∈ rest
    · have inside : 93 ∈ rest.dropWhile isSpace := (mem_dropWhile_isSpace (by decide)).mpr bracket
      have name : ((rest ++ [10]).dropWhile isSpace).takeWhile (· ≠ 93) =
          (rest.dropWhile isSpace).takeWhile (· ≠ 93) := by
        rw [dropWhile_newline ⟨93, bracket, by decide⟩]
        exact takeWhile_append_of_mem inside (by simp) [10]
      rw [name]
    · simp only [if_neg bracket]
  · obtain ⟨empty, empty'⟩ := dropWhile_blank visible
    unfold kind
    simp only [empty, empty', List.headD_nil, true_or, if_true]

/-- Nor does it behind a zero. -/
theorem cstr_newline (s : Bytes) : cstr (s ++ [10]) = cstr s ∨ cstr (s ++ [10]) = cstr s ++ [10] := by
  unfold cstr
  by_cases zero : 0 ∈ s
  · exact .inl (takeWhile_append_of_mem zero (by simp) [10])
  · have all : ∀ c ∈ s, decide (c ≠ 0) = true := fun c member => by
      simpa using fun same : c = 0 => zero (same ▸ member)
    right
    rw [List.takeWhile_append_of_pos all, List.takeWhile_eq_self_iff.mpr all]
    rfl

theorem zero_not_mem_cstr (s : Bytes) : 0 ∉ cstr s := fun member => by
  simpa using List.mem_takeWhile_imp member

/-- A line means the same with its newline. -/
theorem parseLine_newline (ln : Bytes) {s : Parsing} (going : s.err = false) :
    parseLine (cstr (ln ++ [10])) s = parseLine (cstr ln) s := by
  rw [parseLine_eq (zero_not_mem_cstr _) going, parseLine_eq (zero_not_mem_cstr _) going]
  rcases cstr_newline ln with same | longer
  · rw [same]
  · rw [longer, kind_newline]

end Newline

/-! ## Runs over lines -/

/-- A line that is ignored is only counted. -/
theorem parseLine_ignored {ln : Bytes} (ignored : kind (cstr ln) = .ignored) {s : Parsing}
    (going : s.err = false) : parseLine (cstr ln) s = { s with lineno := s.lineno + 1 } := by
  rw [parseLine_eq (zero_not_mem_cstr ln) going, ignored]
  rfl

theorem runLines_ignored {lns : List Bytes} (ignored : ∀ ln ∈ lns, kind (cstr ln) = .ignored)
    {s : Parsing} (going : s.err = false) :
    runLines lns s = { s with lineno := s.lineno + lns.length } := by
  induction lns generalizing s with
  | nil => rfl
  | cons ln lns ih =>
      have going' : ¬ s.err = true := by simp [going]
      rw [runLines, if_neg going', parseLine_ignored (ignored ln List.mem_cons_self) going,
        ih (s := { s with lineno := s.lineno + 1 })
          (fun other member => ignored other (List.mem_cons_of_mem _ member)) going, List.length_cons]
      simp only [Nat.add_assoc, Nat.add_comm 1]

theorem kind_newline_alone : kind (cstr [10]) = .ignored := by decide

theorem kind_empty : kind (cstr []) = .ignored := by decide

/-- Every line is counted. -/
theorem lineno_parseLine (ln : Bytes) {s : Parsing} (going : s.err = false) :
    (parseLine (cstr ln) s).lineno = s.lineno + 1 := by
  rw [parseLine_eq (zero_not_mem_cstr ln) going]
  unfold Parsing.apply
  split
  · rfl
  · rfl
  · split_ifs <;> rfl
  · rfl
  · rfl

theorem lineno_le_runLines (lns : List Bytes) (s : Parsing) :
    s.lineno ≤ (runLines lns s).lineno := by
  induction lns generalizing s with
  | nil => exact le_rfl
  | cons ln lns ih =>
      rw [runLines]
      split_ifs with stopped
      · exact le_rfl
      · have later := ih (parseLine (cstr ln) s)
        rw [lineno_parseLine ln (by simpa using stopped)] at later
        omega

/-- A run that stops has counted the line at which it does. -/
theorem lineno_lt_runLines {lns : List Bytes} {s : Parsing} (going : s.err = false)
    (stopped : (runLines lns s).err = true) : s.lineno < (runLines lns s).lineno := by
  cases lns with
  | nil =>
      rw [runLines, going] at stopped
      cases stopped
  | cons ln lns =>
      have going' : ¬ s.err = true := by simp [going]
      have later := lineno_le_runLines lns (parseLine (cstr ln) s)
      rw [lineno_parseLine ln going] at later
      rw [runLines, if_neg going']
      omega

/-! ## Files whose lines fit -/

/-- The lengths of the lines of a file. -/
def layout (file : Bytes) : List ℕ := (physicalLines file).map List.length

/-- The lines fit in the buffer, and behind one that fills it there are only empty lines. -/
structure Fits (size : ℕ) (lengths : List ℕ) : Prop where
  short : ∀ length ∈ lengths, length < size
  full : lengths.Pairwise fun length later => length = size - 1 → later = 0

section Fitting

variable {size : ℕ} {ln file : Bytes}

theorem layout_cons (one : 10 ∉ ln) (file : Bytes) :
    layout (ln ++ 10 :: file) = ln.length :: layout file := by
  rw [layout, physicalLines_cons one]
  rfl

theorem pieces_nil (size fuel : ℕ) : pieces size fuel [] = [] := by
  cases fuel <;> rfl

/-- A line that fits with its newline is one piece. -/
theorem pieces_short (one : 10 ∉ ln) (fits : ln.length + 1 < size) (file : Bytes) :
    pieces size (ln ++ 10 :: file).length (ln ++ 10 :: file) =
      (ln ++ [10]) :: pieces size file.length file :=
  pieces_cons (by omega) (fgets_short one fits file)

/-- The front of a longer line is a piece. -/
theorem pieces_long (one : 10 ∉ ln) (positive : 1 < size) (long : size - 1 ≤ ln.length)
    (file : Bytes) : pieces size (ln ++ file).length (ln ++ file) =
      ln.take (size - 1) :: pieces size (ln.drop (size - 1) ++ file).length (ln.drop (size - 1) ++ file) :=
  pieces_cons positive (fgets_long one positive long file)

/-- A line that fills the buffer leaves its newline for a piece of its own. -/
theorem pieces_full (one : 10 ∉ ln) (positive : 1 < size) (full : ln.length = size - 1)
    (file : Bytes) : pieces size (ln ++ 10 :: file).length (ln ++ 10 :: file) =
      ln :: [10] :: pieces size file.length file := by
  have newline := pieces_short (by simp : 10 ∉ ([] : Bytes))
    (by simpa using positive : 0 + 1 < size) file
  rw [pieces_long one positive full.ge, ← full, List.take_length, List.drop_length, List.nil_append]
  exact congrArg (ln :: ·) newline

theorem pieces_last (some_char : ln ≠ []) (one : 10 ∉ ln) (positive : 1 < size)
    (fits : ln.length < size) : pieces size ln.length ln = [ln] := by
  rw [pieces_cons positive (fgets_last some_char one fits), pieces_nil]

/-- A file of empty lines. -/
theorem pieces_blank (positive : 1 < size) (empty : ∀ ln ∈ physicalLines file, ln = []) :
    ∀ piece ∈ pieces size file.length file, piece = [10] := by
  induction file using file_induction with
  | nil =>
      intro piece member
      rw [pieces_nil] at member
      cases member
  | last ln some_char one =>
      rw [physicalLines_last some_char one] at empty
      exact absurd (empty ln List.mem_cons_self) some_char
  | cons ln file one ih =>
      rw [physicalLines_cons one] at empty
      rw [empty ln List.mem_cons_self, pieces_short (by simp) (by simpa using positive)]
      intro piece member
      rcases List.mem_cons.mp member with same | later
      · exact same
      · exact ih (fun other inside => empty other (List.mem_cons_of_mem _ inside)) piece later

/-- **A file whose lines fit is read line by line.** -/
theorem outcome_of_fits (positive : 1 < size) (fits : Fits size (layout file)) {s : Parsing}
    (going : s.err = false) :
    (runLines (pieces size file.length file) s).outcome =
      (runLines (physicalLines file) s).outcome := by
  induction file using file_induction generalizing s with
  | nil => rfl
  | last ln some_char one =>
      have short := fits.short ln.length (by
        rw [layout, physicalLines_last some_char one]
        exact List.mem_cons_self)
      rw [physicalLines_last some_char one, pieces_last some_char one positive short]
  | cons ln file one ih =>
      rw [layout_cons one] at fits
      obtain ⟨later, fits_later⟩ := List.pairwise_cons.mp fits.full
      have short := fits.short _ List.mem_cons_self
      have going' : ¬ s.err = true := by simp [going]
      rw [physicalLines_cons one, runLines, if_neg going']
      by_cases full : ln.length = size - 1
      · -- The newline is a piece, and all that follows is blank.
        rw [pieces_full one positive full, runLines, if_neg going']
        have blank : ∀ other ∈ physicalLines file, other = [] := fun other member =>
          List.length_eq_zero_iff.mp (later _ (List.mem_map_of_mem member) full)
        have ignored : ∀ piece ∈ [10] :: pieces size file.length file,
            kind (cstr piece) = .ignored := by
          intro piece member
          rcases List.mem_cons.mp member with rfl | inside
          · exact kind_newline_alone
          · rw [pieces_blank positive blank piece inside]
            exact kind_newline_alone
        have ignored' : ∀ other ∈ physicalLines file, kind (cstr other) = .ignored := by
          intro other member
          rw [blank other member]
          exact kind_empty
        by_cases stopped : (parseLine (cstr ln) s).err = true
        · rw [runLines_of_err stopped, runLines_of_err stopped]
        · have going := Bool.eq_false_iff.mpr stopped
          rw [runLines_ignored ignored going, runLines_ignored ignored' going]
          simp [Parsing.outcome, going]
      · rw [pieces_short one (by omega), runLines, if_neg going', parseLine_newline ln going]
        by_cases stopped : (parseLine (cstr ln) s).err = true
        · rw [runLines_of_err stopped, runLines_of_err stopped]
        · exact ih ⟨fun length member => fits.short length (List.mem_cons_of_mem _ member),
            fits_later⟩ (Bool.eq_false_iff.mpr stopped)

end Fitting

/-! ## Files whose lines do not fit -/

/-- Lines with their newlines. -/
def unlines (lns : List Bytes) : Bytes := lns.flatMap (· ++ [10])

theorem unlines_cons (ln : Bytes) (lns : List Bytes) :
    unlines (ln :: lns) = ln ++ 10 :: unlines lns := by
  simp [unlines]

theorem physicalLines_unlines {lns : List Bytes} (one : ∀ ln ∈ lns, 10 ∉ ln) :
    physicalLines (unlines lns) = lns := by
  induction lns with
  | nil => rfl
  | cons ln lns ih =>
      rw [unlines_cons, physicalLines_cons (one ln List.mem_cons_self),
        ih fun other member => one other (List.mem_cons_of_mem _ member)]

/-- A comment of semicolons. -/
def comment (length : ℕ) : Bytes := List.replicate length 59

/-- A line that is neither a comment nor has a separator. -/
def garbage (length : ℕ) : Bytes := List.replicate length 120

theorem kind_semicolon (text : Bytes) : kind (cstr (59 :: text)) = .ignored := by
  have first : cstr (59 :: text) = 59 :: cstr text := by simp [cstr]
  have visible : isSpace 59 = false := by decide
  rw [first, kind, List.dropWhile_cons_of_neg (Bool.eq_false_iff.mp visible)]
  rfl

theorem kind_comment (length : ℕ) : kind (cstr (comment length)) = .ignored := by
  cases length with
  | zero => exact kind_empty
  | succ length => exact kind_semicolon _

theorem kind_garbage {length : ℕ} (positive : 0 < length) :
    kind (cstr (garbage length)) = .named none ∧
      kind (cstr (garbage length ++ [10])) = .named none := by
  have whole : cstr (garbage length) = garbage length :=
    List.takeWhile_eq_self_iff.mpr fun c member => by
      rw [List.eq_of_mem_replicate member]
      decide
  have named : kind (garbage length) = .named none := by
    obtain ⟨more, rfl⟩ := Nat.exists_eq_succ_of_ne_zero positive.ne'
    have no_equals : 61 ∉ garbage (more + 1) := fun member =>
      absurd (List.eq_of_mem_replicate member) (by decide)
    have no_colon : 58 ∉ garbage (more + 1) := fun member =>
      absurd (List.eq_of_mem_replicate member) (by decide)
    have visible : isSpace 120 = false := by decide
    have text : (garbage (more + 1)).dropWhile isSpace = garbage (more + 1) := by
      rw [garbage, List.replicate_succ, List.dropWhile_cons_of_neg (Bool.eq_false_iff.mp visible)]
    have first : ∀ d, (garbage (more + 1)).headD d = 120 := fun d => rfl
    simp only [kind, text, first, splitAt, if_neg no_equals, if_neg no_colon]
    rfl
  refine ⟨by rw [whole, named], ?_⟩
  rcases cstr_newline (garbage length) with same | longer
  · rw [same, whole, named]
  · rw [longer, whole, kind_newline, named]

section Overlong

variable {size : ℕ}

/-- A comment that fits is ignored, piece by piece. -/
theorem comment_pieces (positive : 1 < size) {length : ℕ} (short : length < size) (file : Bytes) :
    ∃ front, pieces size (comment length ++ 10 :: file).length (comment length ++ 10 :: file) =
        front ++ pieces size file.length file ∧
      (∀ piece ∈ front, kind (cstr piece) = .ignored) ∧
      1 ≤ front.length ∧ (length = size - 1 → 2 ≤ front.length) := by
  have one : 10 ∉ comment length := fun member =>
    absurd (List.eq_of_mem_replicate member) (by decide)
  have counted : (comment length).length = length := List.length_replicate
  by_cases full : length = size - 1
  · refine ⟨[comment length, [10]], pieces_full one positive (by omega) file, ?_, by simp, by simp⟩
    intro piece member
    rcases List.mem_cons.mp member with rfl | newline
    · exact kind_comment length
    · rw [List.mem_singleton.mp newline]
      exact kind_newline_alone
  · refine ⟨[comment length ++ [10]], pieces_short one (by omega) file, ?_, by simp,
      fun equal => absurd equal full⟩
    intro piece member
    rw [List.mem_singleton.mp member]
    rcases cstr_newline (comment length) with same | longer
    · rw [same, kind_comment]
    · rw [longer, kind_newline, kind_comment]

/-- The front of a garbage line is an error. -/
theorem garbage_pieces (positive : 1 < size) {length : ℕ} (some_char : 0 < length) (file : Bytes) :
    ∃ piece more, pieces size (garbage length ++ 10 :: file).length (garbage length ++ 10 :: file) =
      piece :: more ∧ kind (cstr piece) = .named none := by
  have one : 10 ∉ garbage length := fun member =>
    absurd (List.eq_of_mem_replicate member) (by decide)
  have counted : (garbage length).length = length := List.length_replicate
  by_cases short : length + 1 < size
  · exact ⟨_, _, pieces_short one (by omega) file, (kind_garbage some_char).2⟩
  · refine ⟨_, _, pieces_long one positive (by omega) (10 :: file), ?_⟩
    have front : (garbage length).take (size - 1) = garbage (min (size - 1) length) :=
      List.take_replicate ..
    rw [front]
    exact (kind_garbage (by omega)).1

theorem runLines_garbage {piece : Bytes} (named : kind (cstr piece) = .named none)
    (more : List Bytes) {s : Parsing} (going : s.err = false) :
    (runLines (piece :: more) s).err = true ∧
      (runLines (piece :: more) s).outcome.1 = s.lineno + 1 := by
  have going' : ¬ s.err = true := by simp [going]
  have read : parseLine (cstr piece) s =
      { s with lineno := s.lineno + 1, key := [], err := true }.push [] := by
    rw [parseLine_eq (zero_not_mem_cstr piece) going, named]
    rfl
  rw [runLines, if_neg going', runLines_of_err (by rw [read]; rfl), read]
  exact ⟨rfl, rfl⟩

/-- Comments of given lengths; what goes beyond the buffer is garbage. -/
def spilled (size : ℕ) (lengths : List ℕ) : List Bytes :=
  lengths.map fun length => comment (min length (size - 1)) ++ garbage (length - (size - 1))

theorem spilled_spec (positive : 1 < size) (lengths : List ℕ) :
    (∀ ln ∈ spilled size lengths, 10 ∉ ln) ∧ (spilled size lengths).map List.length = lengths ∧
      ∀ ln ∈ spilled size lengths, kind (cstr ln) = .ignored := by
  refine ⟨fun ln member => ?_, ?_, fun ln member => ?_⟩
  · obtain ⟨length, -, rfl⟩ := List.mem_map.mp member
    intro newline
    rcases List.mem_append.mp newline with inside | inside <;>
      exact absurd (List.eq_of_mem_replicate inside) (by decide)
  · rw [spilled, List.map_map]
    refine List.map_id'' (fun length => ?_) lengths
    simp only [Function.comp_apply, comment, garbage, List.length_append, List.length_replicate]
    omega
  · obtain ⟨length, -, rfl⟩ := List.mem_map.mp member
    cases length with
    | zero =>
        rw [Nat.zero_min, Nat.zero_sub]
        exact kind_empty
    | succ length =>
        obtain ⟨more, enough⟩ : ∃ more, min (length + 1) (size - 1) = more + 1 :=
          ⟨min (length + 1) (size - 1) - 1, by omega⟩
        rw [enough]
        exact kind_semicolon _

/-- The tail of an overlong comment is taken for a line. -/
theorem spilled_err (positive : 1 < size) {lengths : List ℕ}
    (long : ∃ length ∈ lengths, size ≤ length) {s : Parsing} (going : s.err = false) :
    (runLines (pieces size (unlines (spilled size lengths)).length (unlines (spilled size lengths)))
      s).err = true := by
  induction lengths generalizing s with
  | nil =>
      obtain ⟨length, member, -⟩ := long
      cases member
  | cons length lengths ih =>
      have going' : ¬ s.err = true := by simp [going]
      have first : unlines (spilled size (length :: lengths)) =
          comment (min length (size - 1)) ++ (garbage (length - (size - 1)) ++
            10 :: unlines (spilled size lengths)) := by
        rw [spilled, List.map_cons, unlines_cons, List.append_assoc]
        rfl
      by_cases here : size ≤ length
      · have one : 10 ∉ comment (size - 1) := fun member =>
          absurd (List.eq_of_mem_replicate member) (by decide)
        have counted : (comment (size - 1)).length = size - 1 := List.length_replicate
        obtain ⟨piece, more, read, named⟩ := garbage_pieces positive
          (by omega : 0 < length - (size - 1)) (unlines (spilled size lengths))
        rw [first, Nat.min_eq_right (by omega), pieces_long one positive counted.ge,
          List.take_of_length_le counted.le, List.drop_of_length_le counted.le, List.nil_append, read,
          runLines, if_neg going', parseLine_ignored (kind_comment _) going]
        exact (runLines_garbage named more (s := { s with lineno := s.lineno + 1 }) going).1
      · obtain ⟨front, read, ignored, -⟩ := comment_pieces positive (by omega : length < size)
          (unlines (spilled size lengths))
        rw [first, Nat.min_eq_left (by omega), Nat.sub_eq_zero_of_le (by omega)]
        show (runLines (pieces size (comment length ++ 10 :: unlines (spilled size lengths)).length
          (comment length ++ 10 :: unlines (spilled size lengths))) s).err = true
        rw [read, runLines_append, runLines_ignored ignored going]
        refine ih ?_ going
        obtain ⟨other, member, far⟩ := long
        rcases List.mem_cons.mp member with rfl | later
        · exact absurd far here
        · exact ⟨other, later, far⟩

/-- By its lines, such a file has no error. -/
theorem spilled_misread (positive : 1 < size) {lengths : List ℕ}
    (long : ∃ length ∈ lengths, size ≤ length) {s : Parsing} (going : s.err = false) :
    (runLines (pieces size (unlines (spilled size lengths)).length (unlines (spilled size lengths)))
      s).outcome ≠ (runLines (physicalLines (unlines (spilled size lengths))) s).outcome := by
  obtain ⟨one, -, ignored⟩ := spilled_spec positive lengths
  have stopped := spilled_err positive long going
  have counted := lineno_lt_runLines going stopped
  rw [physicalLines_unlines one, runLines_ignored ignored going]
  intro same
  have code := congrArg Prod.fst same
  simp only [Parsing.outcome, stopped, going, if_true, Bool.false_eq_true, if_false] at code
  omega

/-- Comments that fit are ignored, and one that fills the buffer is counted twice. -/
theorem comments_pieces (positive : 1 < size) {lengths : List ℕ}
    (short : ∀ length ∈ lengths, length < size) (file : Bytes) :
    ∃ front, pieces size (unlines (lengths.map comment) ++ file).length
          (unlines (lengths.map comment) ++ file) = front ++ pieces size file.length file ∧
      (∀ piece ∈ front, kind (cstr piece) = .ignored) ∧
      lengths.length ≤ front.length ∧ (size - 1 ∈ lengths → lengths.length < front.length) := by
  induction lengths with
  | nil => exact ⟨[], rfl, by simp, le_rfl, by simp⟩
  | cons length lengths ih =>
      obtain ⟨back, read, ignored, counted, twice⟩ := ih fun other member =>
        short other (List.mem_cons_of_mem _ member)
      obtain ⟨front, read', ignored', one, two⟩ := comment_pieces positive
        (short length List.mem_cons_self) (unlines (lengths.map comment) ++ file)
      refine ⟨front ++ back, ?_, ?_, ?_, ?_⟩
      · rw [List.map_cons, unlines_cons, List.append_assoc, List.cons_append, read', read,
          List.append_assoc]
      · intro piece member
        rcases List.mem_append.mp member with here | later
        · exact ignored' piece here
        · exact ignored piece later
      · rw [List.length_append, List.length_cons]
        omega
      · intro full
        rw [List.length_append, List.length_cons]
        rcases List.mem_cons.mp full with here | later
        · have := two here.symm
          omega
        · have := twice later
          omega

/-- Lengths that do not fit: one is too long, or one that fills the buffer is followed by a
line that is not empty. -/
theorem not_fits {lengths : List ℕ} (overlong : ¬ Fits size lengths) :
    (∃ length ∈ lengths, size ≤ length) ∨
      (∀ length ∈ lengths, length < size) ∧ ∃ front length back,
        lengths = front ++ length :: back ∧ size - 1 ∈ front ∧ 0 < length := by
  by_cases long : ∃ length ∈ lengths, size ≤ length
  · exact .inl long
  · have short : ∀ length ∈ lengths, length < size := fun length member => by
      by_contra far
      exact long ⟨length, member, not_lt.mp far⟩
    refine .inr ⟨short, ?_⟩
    have mixed : ¬ lengths.Pairwise fun length later => length = size - 1 → later = 0 :=
      fun full => overlong ⟨short, full⟩
    clear overlong long short
    induction lengths with
    | nil => exact absurd List.Pairwise.nil mixed
    | cons length lengths ih =>
        by_cases rest : lengths.Pairwise fun length later => length = size - 1 → later = 0
        · obtain ⟨later, member, differs⟩ : ∃ later ∈ lengths, ¬ (length = size - 1 → later = 0) := by
            by_contra none
            push Not at none
            exact mixed (List.pairwise_cons.mpr ⟨fun later member => by
              by_contra differs
              exact absurd (none later member) (by push Not; omega), rest⟩)
          obtain ⟨middle, back, rfl⟩ := List.append_of_mem member
          exact ⟨length :: middle, later, back, rfl,
            List.mem_cons.mpr (.inl (by omega)), by omega⟩
        · obtain ⟨front, later, back, rfl, full, positive⟩ := ih rest
          exact ⟨length :: front, later, back, rfl, List.mem_cons_of_mem _ full, positive⟩

/-- Where lines do not fit, a file with lines of these lengths is read differently. -/
theorem exists_misread (positive : 1 < size) {lengths : List ℕ} (overlong : ¬ Fits size lengths)
    {s : Parsing} (going : s.err = false) : ∃ file, layout file = lengths ∧
      (runLines (pieces size file.length file) s).outcome ≠
        (runLines (physicalLines file) s).outcome := by
  rcases not_fits overlong with long | ⟨short, front, length, back, rfl, full, some_char⟩
  · obtain ⟨one, lengths_eq, -⟩ := spilled_spec positive lengths
    exact ⟨unlines (spilled size lengths),
      by rw [layout, physicalLines_unlines one, lengths_eq], spilled_misread positive long going⟩
  · -- The garbage is line `front.length + 1`, and has a greater number among the pieces.
    have one : ∀ ln ∈ front.map comment ++ garbage length :: back.map comment, 10 ∉ ln := by
      intro ln member newline
      rcases List.mem_append.mp member with before | after
      · obtain ⟨n, -, rfl⟩ := List.mem_map.mp before
        exact absurd (List.eq_of_mem_replicate newline) (by decide)
      · rcases List.mem_cons.mp after with rfl | behind
        · exact absurd (List.eq_of_mem_replicate newline) (by decide)
        · obtain ⟨n, -, rfl⟩ := List.mem_map.mp behind
          exact absurd (List.eq_of_mem_replicate newline) (by decide)
    have sizes : ∀ ns : List ℕ, (ns.map comment).map List.length = ns := fun ns => by
      rw [List.map_map]
      exact List.map_id'' (fun n => List.length_replicate) ns
    refine ⟨unlines (front.map comment ++ garbage length :: back.map comment), ?_, ?_⟩
    · rw [layout, physicalLines_unlines one, List.map_append, List.map_cons, sizes, sizes]
      exact congrArg (fun n => front ++ n :: back) List.length_replicate
    · have split : unlines (front.map comment ++ garbage length :: back.map comment) =
          unlines (front.map comment) ++ (garbage length ++ 10 :: unlines (back.map comment)) := by
        rw [← unlines_cons, unlines, unlines, unlines, List.flatMap_append]
      obtain ⟨piece, more, read, named⟩ := garbage_pieces positive some_char
        (unlines (back.map comment))
      obtain ⟨pieces_front, read', ignored, -, counted⟩ := comments_pieces positive
        (fun n member => short n (List.mem_append_left _ member) : ∀ n ∈ front, n < size)
        (garbage length ++ 10 :: unlines (back.map comment))
      have ignored' : ∀ ln ∈ front.map comment, kind (cstr ln) = .ignored := by
        intro ln member
        obtain ⟨n, -, rfl⟩ := List.mem_map.mp member
        exact kind_comment n
      rw [physicalLines_unlines one, split, read', read, runLines_append, runLines_append,
        runLines_ignored ignored going, runLines_ignored ignored' going]
      obtain ⟨-, number⟩ := runLines_garbage named more
        (s := { s with lineno := s.lineno + pieces_front.length }) going
      obtain ⟨-, number'⟩ := runLines_garbage (kind_garbage some_char).1
        (back.map comment) (s := { s with lineno := s.lineno + (front.map comment).length }) going
      intro same
      have code := congrArg Prod.fst same
      have more_pieces := counted full
      rw [number, number'] at code
      simp only [List.length_map] at code
      omega

end Overlong

/-! ## `Conf::parse` -/

theorem parse_eq {fopen : Bytes → Option Bytes} {conf : Conf} {filename file : Bytes}
    (opened : fopen (cstr filename) = some file) :
    parse fopen conf filename =
      ((runLines (pieces MAX_LINE file.length file) (.start conf.values)).outcome.1,
        ⟨(runLines (pieces MAX_LINE file.length file) (.start conf.values)).outcome.2, filename⟩) := by
  rw [parse]
  simp only [opened, parseLoop_eq]
  rfl

theorem parseByLines_eq {fopen : Bytes → Option Bytes} {conf : Conf} {filename file : Bytes}
    (opened : fopen (cstr filename) = some file) :
    parseByLines fopen conf filename =
      ((runLines (physicalLines file) (.start conf.values)).outcome.1,
        ⟨(runLines (physicalLines file) (.start conf.values)).outcome.2, filename⟩) := by
  rw [parseByLines]
  simp only [opened]

/-- A file is treated by its lines: the values and what is returned are those of the rules for
a line, applied to the lines of the file. -/
def TreatedByLines (file : Bytes) : Prop :=
  ∀ (fopen : Bytes → Option Bytes) (conf : Conf) (filename : Bytes),
    fopen (cstr filename) = some file → parse fopen conf filename = parseByLines fopen conf filename

theorem not_treatedByLines {file : Bytes}
    (differs : (runLines (pieces MAX_LINE file.length file) (.start .empty)).outcome ≠
      (runLines (physicalLines file) (.start .empty)).outcome) : ¬ TreatedByLines file := by
  intro treated
  have opened : (fun _ : Bytes => some file) (cstr []) = some file := rfl
  have equal := treated (fun _ => some file) .new [] opened
  rw [parse_eq opened, parseByLines_eq opened] at equal
  obtain ⟨code, conf⟩ := Prod.mk.inj equal
  exact differs (Prod.ext code (Conf.mk.inj conf).1)

/-- **The lengths of its lines decide whether a file is treated by its lines**: all files with
lines of given lengths are, exactly if each line is shorter than the buffer and a line that
fills it with its characters is followed by empty lines only. -/
theorem parse_by_lines_iff (file : Bytes) :
    (∀ other, layout other = layout file → TreatedByLines other) ↔ Fits MAX_LINE (layout file) := by
  have positive : 1 < MAX_LINE := by decide
  constructor
  · intro treated
    by_contra overlong
    obtain ⟨other, same, differs⟩ := exists_misread positive overlong (s := .start .empty) rfl
    exact not_treatedByLines differs (treated other same)
  · intro fits other same fopen conf filename opened
    rw [parse_eq opened, parseByLines_eq opened,
      outcome_of_fits positive (by rwa [same]) (s := .start conf.values) rfl]

/-- A comment of 16384 characters, the last of which is read as a line of its own. -/
theorem comment_misread : ¬ TreatedByLines (unlines [comment 16383 ++ garbage 1]) := by
  have file : spilled MAX_LINE [16384] = [comment 16383 ++ garbage 1] := by
    have fits : min 16384 (MAX_LINE - 1) = 16383 := by decide
    have rest : 16384 - (MAX_LINE - 1) = 1 := by decide
    rw [spilled, List.map_singleton, fits, rest]
  rw [← file]
  exact not_treatedByLines
    (spilled_misread (by decide) ⟨16384, List.mem_cons_self, by decide⟩ rfl)

end Conf

end Handy
