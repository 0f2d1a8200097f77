import Handy.Conf.Chunks

/-!
# Which files are accepted

What a line may be is said by its first characters and the name that is current before it
(`GoodLine`), and `Conf::parse` returns the number of the first line that is not so, or zero
(`parse_first_bad`). A line whose first visible character is a bracket counts as the line of a
section and as nothing else, whatever separators it has.
-/

set_option autoImplicit false

namespace Handy

namespace Conf

/-- The first character that is not a space. -/
def firstChar (ln : Bytes) : Option UInt8 := (ln.dropWhile isSpace).head?

/-- The name on a line: what stands before the first `=`, or without one before the first `:`. -/
def nameOf (ln : Bytes) : Bytes :=
  if 61 ∈ ln then LineScanner.rstrip (ln.takeWhile (· ≠ 61))
  else if 58 ∈ ln then LineScanner.rstrip (ln.takeWhile (· ≠ 58))
  else []

/-- The name that is current after a line: none after the line of a section, its own after the
line of a name, and the same as before after any other. -/
def nextName (current ln : Bytes) : Bytes :=
  if firstChar ln = none ∨ firstChar ln = some 59 ∨ firstChar ln = some 35 then current
  else if firstChar ln = some 91 then []
  else if ln.head?.any isSpace then current
  else nameOf ln

/-- The name that is current after some lines. -/
def currentName (lns : List Bytes) : Bytes := lns.foldl nextName []

/-- What a line may be when a name is current. -/
inductive GoodLine (current ln : Bytes) : Prop where
  | blank (empty : firstChar ln = none)
  | comment (opened : firstChar ln = some 59 ∨ firstChar ln = some 35)
  | bracket (opened : firstChar ln = some 91) (closed : 93 ∈ (ln.dropWhile isSpace).tail)
  | continuation (spaced : ln.head?.any isSpace = true) (named : current ≠ [])
      (no_bracket : firstChar ln ≠ some 91)
  | name (column_one : ln.head?.any (!isSpace ·) = true) (separated : 61 ∈ ln ∨ 58 ∈ ln)
      (no_bracket : firstChar ln ≠ some 91)

/-- The same with no word on brackets. -/
inductive PlausibleLine (current ln : Bytes) : Prop where
  | blank (empty : firstChar ln = none)
  | comment (opened : firstChar ln = some 59 ∨ firstChar ln = some 35)
  | bracket (opened : firstChar ln = some 91) (closed : 93 ∈ (ln.dropWhile isSpace).tail)
  | continuation (spaced : ln.head?.any isSpace = true) (named : current ≠ [])
  | name (column_one : ln.head?.any (!isSpace ·) = true) (separated : 61 ∈ ln ∨ 58 ∈ ln)

/-- Every line of some may be what it is, after those before it. -/
def AllLines (good : Bytes → Bytes → Prop) (lns : List Bytes) : Prop :=
  ∀ front ln back, lns = front ++ ln :: back → good (currentName front) ln

/-! ## One line -/

section Step

variable {ln : Bytes} {s : Parsing}

theorem firstChar_eq_none : firstChar ln = none ↔ ln.dropWhile isSpace = [] := List.head?_eq_none_iff

/-- What the line is that begins with a character. -/
theorem kind_of_firstChar {c : UInt8} (first : firstChar ln = some c) :
    kind ln =
      if c = 59 ∨ c = 35 then .ignored
      else if c = 91 then
        .bracket (if 93 ∈ (ln.dropWhile isSpace).tail then
          some (LineScanner.rstrip (((ln.dropWhile isSpace).tail.dropWhile isSpace).takeWhile (· ≠ 93)))
          else none)
      else if ln.head?.any isSpace then .indented (LineScanner.rstrip (ln.dropWhile isSpace))
      else .named ((splitAt 61 ln).or (splitAt 58 ln)) := by
  have head : (ln.dropWhile isSpace).headD 59 = c := by
    rw [List.headD_eq_head?_getD]
    exact congrArg (·.getD 59) first
  have spaced : isSpace (ln.headD 0) = ln.head?.any isSpace := by
    cases ln <;> rfl
  rw [kind]
  simp only [head, spaced]

theorem splitAt_or (ln : Bytes) :
    ((splitAt 61 ln).or (splitAt 58 ln)).isSome = true ↔ 61 ∈ ln ∨ 58 ∈ ln := by
  unfold splitAt
  by_cases equals : 61 ∈ ln
  · simp [equals]
  · by_cases colon : 58 ∈ ln <;> simp [equals, colon]

theorem splitAt_name {key value : Bytes}
    (split : (splitAt 61 ln).or (splitAt 58 ln) = some (key, value)) : key = nameOf ln := by
  unfold splitAt at split
  unfold nameOf
  split_ifs at split ⊢
  all_goals simp_all

/-- A line that begins with a bracket. -/
theorem goodLine_bracket {key : Bytes} (opened : firstChar ln = some 91) :
    GoodLine key ln ↔ 93 ∈ (ln.dropWhile isSpace).tail := by
  constructor
  · intro good
    cases good with
    | blank empty =>
        rw [opened] at empty
        cases empty
    | comment other =>
        rw [opened] at other
        exact absurd other (by decide)
    | bracket _ closed => exact closed
    | continuation _ _ no_bracket => exact absurd opened no_bracket
    | name _ _ no_bracket => exact absurd opened no_bracket
  · exact .bracket opened

/-- A line that is no comment and no section is a continuation or that of a name. -/
theorem goodLine_other {key : Bytes} {c : UInt8} (first : firstChar ln = some c)
    (comment : ¬ (c = 59 ∨ c = 35)) (bracket : c ≠ 91) : GoodLine key ln ↔
      if ln.head?.any isSpace = true then key ≠ [] else 61 ∈ ln ∨ 58 ∈ ln := by
  have is : ∀ {d}, firstChar ln = some d → c = d := fun same =>
    Option.some_inj.mp (first.symm.trans same)
  have no_bracket : firstChar ln ≠ some 91 := fun opened => bracket (is opened)
  have column : ln.head?.any (!isSpace ·) = true ↔ ¬ ln.head?.any isSpace = true := by
    cases ln with
    | nil => cases first
    | cons d ln => simp
  constructor
  · intro good
    cases good with
    | blank empty =>
        rw [first] at empty
        cases empty
    | comment opened => exact absurd (opened.imp is is) comment
    | bracket opened => exact absurd opened no_bracket
    | continuation spaced named => rwa [if_pos spaced]
    | name column_one separated => rwa [if_neg (column.mp column_one)]
  · intro fits
    split_ifs at fits with spaced
    · exact .continuation spaced fits no_bracket
    · exact .name (column.mpr spaced) fits no_bracket

/-- **A line is an error exactly if it is none of what it may be.** -/
theorem apply_err (going : s.err = false) :
    (s.apply (kind ln)).err = false ↔ GoodLine s.key ln := by
  cases first : firstChar ln with
  | none =>
      have blank : kind ln = .ignored := by
        rw [kind, firstChar_eq_none.mp first]
        rfl
      rw [blank]
      exact iff_of_true going (.blank first)
  | some c =>
      rw [kind_of_firstChar first]
      by_cases comment : c = 59 ∨ c = 35
      · rw [if_pos comment]
        refine iff_of_true going (.comment ?_)
        rw [first]
        exact comment.imp (congrArg some) (congrArg some)
      by_cases bracket : c = 91
      · rw [if_neg comment, if_pos bracket, goodLine_bracket (first.trans (congrArg some bracket))]
        by_cases closed : 93 ∈ (ln.dropWhile isSpace).tail
        · rw [if_pos closed]
          exact iff_of_true rfl closed
        · rw [if_neg closed]
          exact iff_of_false (fun err => by cases err) closed
      rw [if_neg comment, if_neg bracket, goodLine_other first comment bracket]
      by_cases spaced : ln.head?.any isSpace = true
      · rw [if_pos spaced, if_pos spaced]
        by_cases named : s.key = []
        · simp [Parsing.apply, named]
        · simp [Parsing.apply, named, Parsing.push, going]
      · rw [if_neg spaced, if_neg spaced, ← splitAt_or]
        cases (splitAt 61 ln).or (splitAt 58 ln) with
        | none => simp [Parsing.apply, Parsing.push]
        | some pair => simp [Parsing.apply, Parsing.push, going]

/-- **The current name after a line that is no error.** -/
theorem apply_key (good : (s.apply (kind ln)).err = false) :
    (s.apply (kind ln)).key = nextName s.key ln := by
  unfold nextName
  cases first : firstChar ln with
  | none =>
      have blank : kind ln = .ignored := by
        rw [kind, firstChar_eq_none.mp first]
        rfl
      rw [blank]
      simp [Parsing.apply]
  | some c =>
      rw [kind_of_firstChar first] at good ⊢
      simp only [reduceCtorEq, Option.some_inj, false_or]
      split_ifs at good ⊢
      · rfl
      · rfl
      · rfl
      · unfold Parsing.apply
        split_ifs <;> rfl
      · cases split : (splitAt 61 ln).or (splitAt 58 ln) with
        | none =>
            rw [split] at good
            cases good
        | some pair =>
            obtain ⟨key, value⟩ := pair
            exact splitAt_name split

end Step

/-! ## All lines -/

theorem currentName_append (lns : List Bytes) (ln : Bytes) :
    currentName (lns ++ [ln]) = nextName (currentName lns) ln :=
  List.foldl_concat ..

theorem allLines_append {good : Bytes → Bytes → Prop} {lns : List Bytes} {ln : Bytes} :
    AllLines good (lns ++ [ln]) ↔ AllLines good lns ∧ good (currentName lns) ln := by
  constructor
  · intro all
    refine ⟨fun front other back same => ?_, all lns ln [] rfl⟩
    exact all front other (back ++ [ln]) (by rw [same, List.append_assoc, List.cons_append])
  · rintro ⟨all, last⟩ front other back same
    rcases List.eq_nil_or_concat back with rfl | ⟨back, final, rfl⟩
    · obtain ⟨rfl, single⟩ := List.append_inj' same rfl
      cases single
      exact last
    · have split : lns ++ [ln] = (front ++ other :: back) ++ [final] := by
        rw [same, List.append_assoc, List.cons_append, List.concat_eq_append]
      exact all front other back (List.append_inj' split rfl).1

theorem cstr_of_clean {ln : Bytes} (clean : 0 ∉ ln) : cstr ln = ln :=
  List.takeWhile_eq_self_iff.mpr fun c member => by
    simpa using fun same : c = 0 => clean (same ▸ member)

/-- A run over lines that are no errors. -/
theorem runLines_good {lns : List Bytes} (clean : ∀ ln ∈ lns, 0 ∉ ln)
    (all : AllLines GoodLine lns) (values : OrderedMap Bytes (List Bytes)) :
    (runLines lns (.start values)).err = false ∧
      (runLines lns (.start values)).key = currentName lns ∧
      (runLines lns (.start values)).lineno = lns.length := by
  induction lns using List.reverseRecOn with
  | nil => exact ⟨rfl, rfl, rfl⟩
  | append_singleton lns ln ih =>
      obtain ⟨before, last⟩ := allLines_append.mp all
      obtain ⟨going, key, lineno⟩ := ih (fun other member =>
        clean other (List.mem_append_left _ member)) before
      have clean_ln : 0 ∉ ln := clean ln (List.mem_append_right _ List.mem_cons_self)
      have step : runLines (lns ++ [ln]) (.start values) =
          (runLines lns (.start values)).apply (kind ln) := by
        rw [runLines_append, runLines, if_neg (by simp [going]), cstr_of_clean clean_ln,
          parseLine_eq clean_ln going]
        rfl
      have fine : ((runLines lns (.start values)).apply (kind ln)).err = false :=
        (apply_err going).mpr (key ▸ last)
      refine ⟨step ▸ fine, ?_, ?_⟩
      · rw [step, apply_key fine, key, currentName_append]
      · have counted := lineno_parseLine ln going
        rw [cstr_of_clean clean_ln, parseLine_eq clean_ln going, lineno] at counted
        rw [step, counted, List.length_append, List.length_singleton]

/-- A run up to the first line that is an error. -/
theorem runLines_bad {front : List Bytes} (back : List Bytes) {ln : Bytes}
    (clean : ∀ other ∈ front, 0 ∉ other) (clean_ln : 0 ∉ ln) (all : AllLines GoodLine front) (bad : ¬ GoodLine (currentName front) ln)
    (values : OrderedMap Bytes (List Bytes)) :
    (runLines (front ++ ln :: back) (.start values)).err = true ∧
      (runLines (front ++ ln :: back) (.start values)).lineno = front.length + 1 := by
  obtain ⟨going, key, lineno⟩ := runLines_good clean all values
  have stopped : (parseLine (cstr ln) (runLines front (.start values))).err = true := by
    rw [cstr_of_clean clean_ln, parseLine_eq clean_ln going]
    by_contra fine
    exact bad (key ▸ (apply_err going).mp (Bool.eq_false_iff.mpr fine))
  have counted := lineno_parseLine ln going
  rw [runLines_append, runLines, if_neg (by simp [going]), runLines_of_err stopped]
  exact ⟨stopped, counted.trans (congrArg (· + 1) lineno)⟩

/-- Either all lines are good, or there is a first that is not. -/
theorem first_bad (good : Bytes → Bytes → Prop) (lns : List Bytes) :
    AllLines good lns ∨ ∃ front ln back, lns = front ++ ln :: back ∧ AllLines good front ∧
      ¬ good (currentName front) ln := by
  induction lns using List.reverseRecOn with
  | nil => exact .inl fun front ln back same => by simp at same
  | append_singleton lns ln ih =>
      rcases ih with all | ⟨front, other, back, rfl, all, bad⟩
      · by_cases last : good (currentName lns) ln
        · exact .inl (allLines_append.mpr ⟨all, last⟩)
        · exact .inr ⟨lns, ln, [], rfl, all, last⟩
      · exact .inr ⟨front, other, back ++ [ln], by rw [List.append_assoc, List.cons_append], all, bad⟩

theorem mem_of_mem_physicalLines {file ln : Bytes} (member : ln ∈ physicalLines file) :
    ln ⊆ file := by
  induction file using file_induction with
  | nil => cases member
  | last other some_char one =>
      rw [physicalLines_last some_char one] at member
      rw [List.mem_singleton.mp member]
      exact List.Subset.refl _
  | cons other file one ih =>
      rw [physicalLines_cons one] at member
      rcases List.mem_cons.mp member with rfl | later
      · exact List.subset_append_left _ _
      · exact fun c inside =>
          List.mem_append_right _ (List.mem_cons_of_mem _ (ih later inside))

/-- **`Conf::parse` finds the first line that is an error**: for a file without zeros whose
lines fit in the buffer it returns zero exactly if every line may be what it is, and otherwise
the number of the first line that may not. -/
theorem parse_first_bad {file : Bytes} (fits : Fits MAX_LINE (layout file)) (clean : 0 ∉ file)
    {fopen : Bytes → Option Bytes} {conf : Conf} {filename : Bytes}
    (opened : fopen (cstr filename) = some file) :
    ((parse fopen conf filename).1 = 0 ↔ AllLines GoodLine (physicalLines file)) ∧
    ∀ front ln back, physicalLines file = front ++ ln :: back → AllLines GoodLine front →
      ¬ GoodLine (currentName front) ln → (parse fopen conf filename).1 = front.length + 1 := by
  have clean_lines : ∀ ln ∈ physicalLines file, 0 ∉ ln := fun ln member zero =>
    clean (mem_of_mem_physicalLines member zero)
  have code : (parse fopen conf filename).1 =
      (runLines (physicalLines file) (.start conf.values)).outcome.1 := by
    rw [parse_eq opened, outcome_of_fits (by decide) fits rfl]
  have bad_code : ∀ front ln back, physicalLines file = front ++ ln :: back →
      AllLines GoodLine front → ¬ GoodLine (currentName front) ln →
      (parse fopen conf filename).1 = front.length + 1 := by
    intro front ln back split all bad
    rw [split] at clean_lines
    obtain ⟨stopped, number⟩ := runLines_bad back
      (fun other member => clean_lines other (List.mem_append_left _ member))
      (clean_lines ln (List.mem_append_right _ List.mem_cons_self)) all bad conf.values
    rw [code, split, Parsing.outcome, stopped, if_pos rfl, number]
    rfl
  refine ⟨⟨fun zero => ?_, fun all => ?_⟩, bad_code⟩
  · rcases first_bad GoodLine (physicalLines file) with all | ⟨front, ln, back, split, all, bad⟩
    · exact all
    · have := bad_code front ln back split all bad
      omega
  · obtain ⟨going, -⟩ := runLines_good clean_lines all conf.values
    rw [code, Parsing.outcome, going, if_neg Bool.false_ne_true]

theorem allLines_nil (good : Bytes → Bytes → Prop) : AllLines good [] :=
  fun front ln back same => by simp at same

/-- The third line of `[a]`, `b=c`, `d`. -/
theorem parse_first_bad_third :
    (parse (fun _ => some (ascii "[a]\nb=c\nd")) .new []).1 = 3 := by
  have lines : physicalLines (ascii "[a]\nb=c\nd") = [ascii "[a]", ascii "b=c"] ++ ascii "d" :: [] := by
    decide +kernel
  have first : AllLines GoodLine ([] ++ [ascii "[a]"]) :=
    allLines_append.mpr ⟨allLines_nil _, .bracket (by decide) (by decide)⟩
  have second : AllLines GoodLine ([ascii "[a]"] ++ [ascii "b=c"]) :=
    allLines_append.mpr ⟨first, .name (by decide) (by decide) (by decide)⟩
  have fits : Fits MAX_LINE (layout (ascii "[a]\nb=c\nd")) :=
    ⟨by decide +kernel, by decide +kernel⟩
  refine (parse_first_bad fits (by decide +kernel) rfl).2 _ _ _ lines second fun good => ?_
  cases good with
  | blank empty => exact absurd empty (by decide)
  | comment opened => exact absurd opened (by decide)
  | bracket opened => exact absurd opened (by decide)
  | continuation spaced => exact absurd spaced (by decide)
  | name _ separated => exact absurd separated (by decide)

/-- A line that begins with a bracket in column one and has a separator. -/
theorem bracket_no_name : ¬ ∀ file : Bytes, Fits MAX_LINE (layout file) → 0 ∉ file →
    ∀ (fopen : Bytes → Option Bytes) (conf : Conf) (filename : Bytes),
      fopen (cstr filename) = some file →
      ((parse fopen conf filename).1 = 0 ↔ AllLines PlausibleLine (physicalLines file)) := by
  intro always
  have allowed : AllLines PlausibleLine ([] ++ [ascii "[a=b"]) :=
    allLines_append.mpr ⟨allLines_nil _, .name (by decide) (by decide)⟩
  have zero := (always (ascii "[a=b") ⟨by decide +kernel, by decide +kernel⟩ (by decide +kernel)
    (fun _ => some (ascii "[a=b")) .new [] rfl).mpr (by exact allowed)
  exact absurd zero (by decide +kernel)

end Conf

end Handy
