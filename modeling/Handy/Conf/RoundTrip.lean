import Handy.Conf.Values
import Handy.Conf.Writes

/-!
# Documents

A document is a list of chapters, each with entries, each with values. It is rendered to the
lines `[section]`, `name=value`, and an indented line for every further value; the text that may
stand in each place is part of the types. `document_read` says that `Conf::parse` accepts what is
rendered, and that the lookups return what was written.

The induction follows the lines, with the current section and the current name as invariant:
what the lines of an entry and of a chapter write is said by one lemma each.
-/

set_option autoImplicit false

namespace Handy

namespace Conf

/-! ## Pieces that are lines -/

/-- Two lists of lines that do the same, but for the count of lines. -/
def SameRun (lns lns' : List Bytes) : Prop :=
  ∀ s t, Alike s t → Alike (runLines lns s) (runLines lns' t) ∧ written lns s = written lns' t

theorem written_of_err {s : Parsing} (stopped : s.err = true) (lns : List Bytes) :
    written lns s = [] := by
  cases lns with
  | nil => rfl
  | cons ln lns => rw [written, if_pos stopped]

/-- The first line is done. -/
theorem run_cons (ln : Bytes) (lns : List Bytes) {s : Parsing} (going : s.err = false) :
    runLines (ln :: lns) s = runLines lns (s.apply (kind (cstr ln))) ∧
      written (ln :: lns) s =
        s.writes (kind (cstr ln)) ++ written lns (s.apply (kind (cstr ln))) := by
  have left : ¬ s.err = true := by simp [going]
  rw [runLines, written, if_neg left, if_neg left, parseLine_eq (zero_not_mem_cstr ln) going]
  exact ⟨rfl, rfl⟩

namespace SameRun

variable {lns lns' : List Bytes} {ln ln' : Bytes}

theorem refl (lns : List Bytes) : SameRun lns lns := fun _ _ alike => alike.run lns

theorem cons (same : kind (cstr ln) = kind (cstr ln')) (rest : SameRun lns lns') :
    SameRun (ln :: lns) (ln' :: lns') := by
  intro s t alike
  cases going : s.err with
  | true =>
      have stopped : t.err = true := alike.err ▸ going
      rw [runLines_of_err going, runLines_of_err stopped, written_of_err going, written_of_err stopped]
      exact ⟨alike, rfl⟩
  | false =>
      obtain ⟨run, writes⟩ := run_cons ln lns going
      obtain ⟨run', writes'⟩ := run_cons ln' lns' (alike.err ▸ going)
      obtain ⟨after, more⟩ := rest _ _ (alike.apply (kind (cstr ln)))
      rw [run, run', writes, writes', ← same, alike.writes, more]
      exact ⟨after, rfl⟩

/-- A line that is ignored can be left out. -/
theorem skip (ignored : kind (cstr ln) = .ignored) (rest : SameRun lns lns') :
    SameRun (ln :: lns) lns' := by
  intro s t alike
  cases going : s.err with
  | true =>
      have stopped : t.err = true := alike.err ▸ going
      rw [runLines_of_err going, runLines_of_err stopped, written_of_err going, written_of_err stopped]
      exact ⟨alike, rfl⟩
  | false =>
      obtain ⟨run, writes⟩ := run_cons ln lns going
      rw [run, writes, ignored]
      exact rest _ _ ⟨alike.sectionName, alike.key, alike.err⟩

end SameRun

theorem kind_cstr_newline (ln : Bytes) : kind (cstr (ln ++ [10])) = kind (cstr ln) := by
  rcases cstr_newline ln with same | longer
  · rw [same]
  · rw [longer, kind_newline]

/-- **Lines below the limit are read line by line.** -/
theorem sameRun_pieces {size : ℕ} (positive : 1 < size) {file : Bytes}
    (short : ∀ ln ∈ physicalLines file, ln.length < size) :
    SameRun (pieces size file.length file) (physicalLines file) := by
  induction file using file_induction with
  | nil => exact .refl []
  | last ln some_char one =>
      rw [physicalLines_last some_char one] at short ⊢
      rw [pieces_last some_char one positive (short ln List.mem_cons_self)]
      exact .refl [ln]
  | cons ln file one ih =>
      rw [physicalLines_cons one] at short ⊢
      have rest := ih fun other member => short other (List.mem_cons_of_mem _ member)
      have fits := short ln List.mem_cons_self
      by_cases full : ln.length = size - 1
      · -- The newline is a piece of its own.
        rw [pieces_full one positive full]
        exact .cons rfl (.skip kind_newline_alone rest)
      · rw [pieces_short one (by omega)]
        exact .cons (kind_cstr_newline ln) rest

/-! ## Documents -/

/-- It does not begin like a comment or a section. -/
def Unmarked (s : Bytes) : Prop := ∀ c, s.head? = some c → c ≠ 59 ∧ c ≠ 35 ∧ c ≠ 91

/-- A further value, on an indented line. -/
structure Continuation where
  indent : Bytes
  value : Bytes
  indented : indent ≠ []
  spaces : ∀ c ∈ indent, isSpace c = true
  some_value : value ≠ []
  trimmed : Trimmed value
  unmarked : Unmarked value
  one_line : 10 ∉ indent ∧ 10 ∉ value
  no_zero : 0 ∉ value

/-- A name with its values. -/
structure Entry where
  name : Bytes
  first : Bytes
  further : List Continuation
  some_name : name ≠ []
  trimmed : Trimmed name
  unmarked : Unmarked name
  no_equals : 61 ∉ name
  one_line : 10 ∉ name
  no_zero : 0 ∉ name ∧ 0 ∉ first
  /-- The first value is one word. -/
  word : ∀ c ∈ first, plain c = true

/-- A section with its names. -/
structure Chapter where
  sectionName : Bytes
  entries : List Entry
  trimmed : Trimmed sectionName
  no_bracket : 93 ∉ sectionName
  one_line : 10 ∉ sectionName
  no_zero : 0 ∉ sectionName

def Continuation.line (more : Continuation) : Bytes := more.indent ++ more.value

def Entry.line (entry : Entry) : Bytes := entry.name ++ 61 :: entry.first

def Entry.lines (entry : Entry) : List Bytes := entry.line :: entry.further.map Continuation.line

def Chapter.line (chapter : Chapter) : Bytes := 91 :: (chapter.sectionName ++ [93])

def Chapter.lines (chapter : Chapter) : List Bytes :=
  chapter.line :: chapter.entries.flatMap Entry.lines

/-- The file of a document. -/
def render (document : List Chapter) : Bytes := unlines (document.flatMap Chapter.lines)

/-- The values of an entry, under its name and a section. -/
def Entry.writes (sectionName : Bytes) (entry : Entry) : List Write :=
  ⟨sectionName, entry.name, entry.first⟩ ::
    entry.further.map fun more => ⟨sectionName, entry.name, more.value⟩

def Chapter.writes (chapter : Chapter) : List Write :=
  chapter.entries.flatMap (Entry.writes chapter.sectionName)

/-- The values that a document has under the pairs which are the same text as a pair when they
are joined by a dot, whatever the case of the letters. -/
def valuesUnder (document : List Chapter) (sectionName name : Bytes) : List Bytes :=
  ((document.flatMap Chapter.writes).filter fun w =>
    lower (w.sectionName ++ ascii "." ++ w.name) = lower (sectionName ++ ascii "." ++ name)).map
      Write.value

/-! ## What the lines are -/

/-- A text that begins with a visible character. -/
theorem dropWhile_visible {s : Bytes} (visible : s.head?.all (!isSpace ·) = true) :
    s.dropWhile isSpace = s := by
  cases s with
  | nil => rfl
  | cons c s => exact List.dropWhile_cons_of_neg (by simpa using visible)

namespace Continuation

variable (more : Continuation)

theorem clean : 0 ∉ more.line := fun member => by
  rcases List.mem_append.mp member with inside | inside
  · exact absurd (more.spaces 0 inside) (by decide)
  · exact more.no_zero inside

theorem no_newline : 10 ∉ more.line := fun member =>
  (List.mem_append.mp member).elim more.one_line.1 more.one_line.2

theorem kind_line : kind more.line = .indented more.value := by
  obtain ⟨c, others, value⟩ := List.exists_cons_of_ne_nil more.some_value
  obtain ⟨space, spaces, indent⟩ := List.exists_cons_of_ne_nil more.indented
  have text : more.line.dropWhile isSpace = more.value := by
    rw [line, List.dropWhile_append_of_pos more.spaces, dropWhile_visible more.trimmed.1]
  have first : firstChar more.line = some c := by
    rw [firstChar, text, value]
    rfl
  obtain ⟨semicolon, hash, bracket⟩ := more.unmarked c (by rw [value]; rfl)
  have spaced : more.line.head?.any isSpace = true := by
    rw [line, indent]
    exact more.spaces space (indent ▸ List.mem_cons_self)
  have no_comment : ¬ (c = 59 ∨ c = 35) := fun opened => opened.elim semicolon hash
  rw [kind_of_firstChar first, if_neg no_comment, if_neg bracket, if_pos spaced, text,
    rstrip_trimmed more.trimmed]

end Continuation

namespace Entry

variable (entry : Entry)

theorem clean : 0 ∉ entry.line := fun member => by
  rcases List.mem_append.mp member with inside | inside
  · exact entry.no_zero.1 inside
  · rcases List.mem_cons.mp inside with equals | behind
    · exact absurd equals (by decide)
    · exact entry.no_zero.2 behind

theorem no_newline : 10 ∉ entry.line := fun member => by
  rcases List.mem_append.mp member with inside | inside
  · exact entry.one_line inside
  · rcases List.mem_cons.mp inside with equals | behind
    · exact absurd equals (by decide)
    · exact absurd (entry.word 10 behind) (by decide)

theorem valueOf_first : valueOf entry.first = entry.first := by
  have visible : entry.first.head?.all (!isSpace ·) = true := by
    cases first : entry.first with
    | nil => rfl
    | cons c others =>
        have goes := entry.word c (first ▸ List.mem_cons_self)
        simp only [plain, Bool.and_eq_true] at goes
        exact goes.1.1
  rw [valueOf_visible visible, List.takeWhile_eq_self_iff.mpr entry.word]

theorem kind_line : kind entry.line = .named (some (entry.name, entry.first)) := by
  obtain ⟨c, others, name⟩ := List.exists_cons_of_ne_nil entry.some_name
  have head : entry.line.head? = some c := by
    rw [line, name]
    rfl
  have visible : isSpace c = false := by
    have begins := entry.trimmed.1
    rw [name] at begins
    simpa using begins
  rw [kind_named head visible (entry.unmarked c (by rw [name]; rfl)), line,
    splitAt_append entry.no_equals, rstrip_trimmed entry.trimmed, valueOf_first]
  rfl

end Entry

namespace Chapter

variable (chapter : Chapter)

theorem clean : 0 ∉ chapter.line := by
  simp [line, chapter.no_zero]

theorem no_newline : 10 ∉ chapter.line := by
  simp [line, chapter.one_line]

theorem kind_line : kind chapter.line = .bracket (some chapter.sectionName) := by
  have text : chapter.line.dropWhile isSpace = 91 :: (chapter.sectionName ++ [93]) :=
    List.dropWhile_cons_of_neg (by decide)
  have first : firstChar chapter.line = some 91 := by
    rw [firstChar, text]
    rfl
  have closed : 93 ∈ chapter.sectionName ++ [93] := by simp
  have visible : (chapter.sectionName ++ [93]).head?.all (!isSpace ·) = true := by
    cases name : chapter.sectionName with
    | nil => rfl
    | cons c others =>
        have begins := chapter.trimmed.1
        rw [name] at begins
        exact begins
  have passed : ∀ c ∈ chapter.sectionName, decide (c ≠ 93) = true := fun c member => by
    simpa using fun same : c = 93 => chapter.no_bracket (same ▸ member)
  rw [kind_of_firstChar first, if_neg (by decide), if_pos rfl, text, List.tail_cons, if_pos closed,
    dropWhile_visible visible, List.takeWhile_append_of_pos passed,
    List.takeWhile_cons_of_neg (by simp), List.append_nil, rstrip_trimmed chapter.trimmed]

end Chapter

/-! ## What the lines write -/

theorem written_append (lns more : List Bytes) (s : Parsing) :
    written (lns ++ more) s = written lns s ++ written more (runLines lns s) := by
  induction lns generalizing s with
  | nil => rfl
  | cons ln lns ih =>
      cases going : s.err with
      | true => rw [written_of_err going, written_of_err going, runLines_of_err going,
          written_of_err going, List.append_nil]
      | false =>
          obtain ⟨-, writes⟩ := run_cons ln (lns ++ more) going
          obtain ⟨run, writes'⟩ := run_cons ln lns going
          rw [List.cons_append, writes, writes', run, ih, List.append_assoc]

/-- The lines are read without an error, they leave the section, and they write some values. -/
structure Reads (lns : List Bytes) (s : Parsing) (ws : List Write) : Prop where
  going : (runLines lns s).err = false
  sectionName : (runLines lns s).sectionName = s.sectionName
  writes : written lns s = ws

namespace Reads

variable {s : Parsing}

theorem nil (going : s.err = false) : Reads [] s [] := ⟨going, rfl, rfl⟩

theorem append {lns more : List Bytes} {ws ws' : List Write} (front : Reads lns s ws)
    (back : Reads more (runLines lns s) ws') : Reads (lns ++ more) s (ws ++ ws') where
  going := by
    rw [runLines_append]
    exact back.going
  sectionName := by
    rw [runLines_append, back.sectionName, front.sectionName]
  writes := by
    rw [written_append, front.writes, back.writes]

/-- The further values of an entry. -/
theorem further (going : s.err = false) (named : s.key ≠ []) (values : List Continuation) :
    Reads (values.map Continuation.line) s
      (values.map fun more => ⟨s.sectionName, s.key, more.value⟩) := by
  induction values generalizing s with
  | nil => exact .nil going
  | cons more values ih =>
      obtain ⟨run, writes⟩ :=
        run_cons more.line (values.map Continuation.line) going
      rw [cstr_of_clean more.clean, more.kind_line, Parsing.apply, if_pos named] at run writes
      have rest := ih (s := Parsing.push { s with lineno := s.lineno + 1 } more.value) going named
      refine ⟨?_, ?_, ?_⟩
      · rw [List.map_cons, run]
        exact rest.going
      · rw [List.map_cons, run]
        exact rest.sectionName
      · rw [List.map_cons, writes, rest.writes, Parsing.writes, if_pos named]
        rfl

/-- **The lines of an entry write its values.** -/
theorem entry (going : s.err = false) (entry : Entry) :
    Reads entry.lines s (entry.writes s.sectionName) := by
  obtain ⟨run, writes⟩ :=
    run_cons entry.line (entry.further.map Continuation.line) going
  rw [cstr_of_clean entry.clean, entry.kind_line] at run writes
  have rest := further (s := s.apply (.named (some (entry.name, entry.first)))) going
    entry.some_name entry.further
  refine ⟨?_, ?_, ?_⟩
  · rw [Entry.lines, run]
    exact rest.going
  · rw [Entry.lines, run]
    exact rest.sectionName
  · rw [Entry.lines, writes, rest.writes]
    rfl

theorem entries (going : s.err = false) (list : List Entry) :
    Reads (list.flatMap Entry.lines) s (list.flatMap (Entry.writes s.sectionName)) := by
  induction list generalizing s with
  | nil => exact .nil going
  | cons head list ih =>
      have first := entry going head
      have rest := ih first.going
      rw [first.sectionName] at rest
      exact first.append rest

end Reads

/-- **The lines of a chapter write its values**, whatever the section before. -/
theorem chapter_writes {s : Parsing} (going : s.err = false) (chapter : Chapter) :
    (runLines chapter.lines s).err = false ∧ written chapter.lines s = chapter.writes := by
  obtain ⟨run, writes⟩ :=
    run_cons chapter.line (chapter.entries.flatMap Entry.lines) going
  rw [cstr_of_clean chapter.clean, chapter.kind_line] at run writes
  have rest := Reads.entries (s := s.apply (.bracket (some chapter.sectionName))) rfl chapter.entries
  rw [Chapter.lines, run, writes, rest.writes]
  exact ⟨rest.going, rfl⟩

/-- **The lines of a document write its values.** -/
theorem document_writes {s : Parsing} (going : s.err = false) (document : List Chapter) :
    (runLines (document.flatMap Chapter.lines) s).err = false ∧
      written (document.flatMap Chapter.lines) s = document.flatMap Chapter.writes := by
  induction document generalizing s with
  | nil => exact ⟨going, rfl⟩
  | cons chapter document ih =>
      obtain ⟨fine, writes⟩ := chapter_writes going chapter
      obtain ⟨fine_rest, rest⟩ := ih fine
      rw [List.flatMap_cons, List.flatMap_cons, runLines_append, written_append, writes, rest]
      exact ⟨fine_rest, rfl⟩

/-! ## The round trip -/

theorem one_line_lines {document : List Chapter} : ∀ ln ∈ document.flatMap Chapter.lines, 10 ∉ ln := by
  intro ln member
  obtain ⟨chapter, -, inside⟩ := List.mem_flatMap.mp member
  rcases List.mem_cons.mp inside with rfl | later
  · exact chapter.no_newline
  · obtain ⟨entry, -, inside⟩ := List.mem_flatMap.mp later
    rcases List.mem_cons.mp inside with rfl | further
    · exact entry.no_newline
    · obtain ⟨more, -, rfl⟩ := List.mem_map.mp further
      exact more.no_newline

/-- **What is rendered is read back**: `Conf::parse` accepts the file of a document whose lines
are below the limit, `getStrings` returns the values written under the pair in their order, and
`get` the last of them. -/
theorem document_read {document : List Chapter}
    (short : ∀ ln ∈ document.flatMap Chapter.lines, ln.length < MAX_LINE)
    {fopen : Bytes → Option Bytes} {filename : Bytes}
    (opened : fopen (cstr filename) = some (render document)) :
    (parse fopen .new filename).1 = 0 ∧ ∀ sectionName name : Bytes,
      (parse fopen .new filename).2.getStrings sectionName name =
          valuesUnder document sectionName name ∧
        ∀ default_value, (parse fopen .new filename).2.get sectionName name default_value =
          (valuesUnder document sectionName name).getLastD default_value := by
  have lines : physicalLines (render document) = document.flatMap Chapter.lines :=
    physicalLines_unlines one_line_lines
  have same : SameRun (pieces MAX_LINE (render document).length (render document))
      (document.flatMap Chapter.lines) := by
    rw [← lines] at short ⊢
    exact sameRun_pieces (by decide) short
  obtain ⟨alike, writes_eq⟩ := same (.start .empty) (.start .empty) ⟨rfl, rfl, rfl⟩
  obtain ⟨fine, values⟩ := document_writes (s := .start .empty) rfl document
  have strings : ∀ sectionName name, (parse fopen .new filename).2.getStrings sectionName name =
      valuesUnder document sectionName name := by
    intro sectionName name
    have all : writes (render document) = document.flatMap Chapter.writes := writes_eq.trans values
    rw [parse_writes opened, getStrings_stored, all]
    rfl
  refine ⟨?_, fun sectionName name => ⟨strings sectionName name, fun default_value => ?_⟩⟩
  · rw [parse_eq opened, Parsing.outcome, if_neg (by simp [Conf.new, alike.err, fine])]
  · rw [get_eq, strings]

/-- `[multi]`, `name=one` and the line ` two words`. -/
def multi : Chapter where
  sectionName := ascii "multi"
  entries := [{
    name := ascii "name"
    first := ascii "one"
    further := [{
      indent := ascii " "
      value := ascii "two words"
      indented := by decide +kernel
      spaces := blank_spaces
      some_value := by decide +kernel
      trimmed := by decide +kernel
      unmarked := fun c head => by
        cases head
        decide
      one_line := by decide +kernel
      no_zero := by decide +kernel }]
    some_name := by decide +kernel
    trimmed := by decide +kernel
    unmarked := fun c head => by
      cases head
      decide
    no_equals := by decide +kernel
    one_line := by decide +kernel
    no_zero := by decide +kernel
    word := by decide +kernel }]
  trimmed := by decide +kernel
  no_bracket := by decide +kernel
  one_line := by decide +kernel
  no_zero := by decide +kernel

theorem document_read_multi :
    (parse (onDisk (render [multi])) .new []).2.getStrings (ascii "Multi") (ascii "NAME") =
      [ascii "one", ascii "two words"] := by
  have opened : onDisk (render [multi]) (cstr []) = some (render [multi]) := rfl
  have short : ∀ ln ∈ [multi].flatMap Chapter.lines, ln.length < MAX_LINE := by decide +kernel
  rw [((document_read short opened).2 (ascii "Multi") (ascii "NAME")).1]
  decide +kernel

end Conf

end Handy
