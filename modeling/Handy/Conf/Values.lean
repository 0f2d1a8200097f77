import Handy.Conf.Lines

/-!
# What is stored for a name

Lines of the form `name = value` or `name : value`, with or without a comment behind a space
and a semicolon. `consumeTillEnd` stops before the first `;` or `#`, and behind the first
space, so of a value with inner spaces it keeps the first word, and nothing behind a mark.
`value_stored_iff` says when the turn of the loop that reads such a line stores its value.
-/

set_option autoImplicit false

namespace Handy

/-! ## Prefixes -/

/-- A prefix of two texts is one of the first, or reaches into the second. -/
theorem prefix_append_or {α : Type} {t front rest : List α} (isPrefix : t <+: front ++ rest) :
    t <+: front ∨ ∃ more, t = front ++ more ∧ more <+: rest := by
  have whole := List.prefix_append front rest
  by_cases long : front.length ≤ t.length
  · obtain ⟨more, rfl⟩ := List.prefix_of_prefix_length_le whole isPrefix long
    exact .inr ⟨more, rfl, (List.prefix_append_right_inj front).mp isPrefix⟩
  · exact .inl (List.prefix_of_prefix_length_le isPrefix whole (by omega))

theorem takeWhile_prefix_mono {α : Type} {p : α → Bool} {t u : List α} (isPrefix : t <+: u) :
    t.takeWhile p <+: u.takeWhile p := by
  obtain ⟨rest, rfl⟩ := isPrefix
  by_cases stops : ∃ c ∈ t, p c = false
  · obtain ⟨c, member, fails⟩ := stops
    rw [takeWhile_append_of_mem member fails]
  · have all : ∀ c ∈ t, p c = true := fun c member => by
      by_contra fails
      exact stops ⟨c, member, by simpa using fails⟩
    rw [List.takeWhile_append_of_pos all, List.takeWhile_eq_self_iff.mpr all]
    exact List.prefix_append _ _

theorem dropWhile_prefix_mono {α : Type} {p : α → Bool} {t u : List α} (isPrefix : t <+: u) :
    t.dropWhile p <+: u.dropWhile p := by
  obtain ⟨rest, rfl⟩ := isPrefix
  by_cases stops : ∃ c ∈ t, p c = false
  · obtain ⟨c, member, fails⟩ := stops
    rw [(dropWhile_append_of_mem member fails rest).1]
    exact List.prefix_append _ _
  · have all : ∀ c ∈ t, p c = true := fun c member => by
      by_contra fails
      exact stops ⟨c, member, by simpa using fails⟩
    rw [List.dropWhile_eq_nil_iff.mpr all]
    exact List.nil_prefix

namespace Conf

/-! ## Lines with a value -/

/-- A line with a name and a value. -/
structure ValueLine where
  name : Bytes
  before : Bytes
  sep : UInt8
  after : Bytes
  value : Bytes
  /-- A comment with the spaces before it, or nothing. -/
  remark : Bytes
  separator : sep = 61 ∨ sep = 58
  name_trimmed : Trimmed name
  name_plain : 61 ∉ name ∧ 58 ∉ name
  value_trimmed : Trimmed value
  before_spaces : ∀ c ∈ before, isSpace c = true
  after_spaces : ∀ c ∈ after, isSpace c = true
  remark_form : remark = [] ∨ ∃ spaces text, spaces ≠ [] ∧ (∀ c ∈ spaces, isSpace c = true) ∧
    remark = spaces ++ 59 :: text
  one_line : 10 ∉ name ∧ 10 ∉ before ∧ 10 ∉ after ∧ 10 ∉ value ∧ 10 ∉ remark

namespace ValueLine

variable (line : ValueLine)

/-- What stands behind the separator. -/
def rest : Bytes := line.after ++ (line.value ++ line.remark)

/-- The line. -/
def text : Bytes := (line.name ++ line.before) ++ line.sep :: line.rest

theorem text_append (more : Bytes) :
    line.text ++ more = (line.name ++ line.before) ++ line.sep :: (line.rest ++ more) := by
  rw [text, List.append_assoc, List.cons_append]

end ValueLine

/-- What the scanner sees of a file in one turn of the loop. -/
def seen (file : Bytes) : Bytes := cstr (throughNewline (file.take (MAX_LINE - 1)))

/-- The turn of the loop that reads the start of a file stores exactly the value of a line,
under the current section and the name of the line. -/
def StoresExactly (s : Parsing) (line : ValueLine) (file : Bytes) : Prop :=
  ∃ ln more, fgets MAX_LINE file = some (ln, more) ∧ (parseLine (cstr ln) s).err = false ∧
    (parseLine (cstr ln) s).sectionName = s.sectionName ∧
    (parseLine (cstr ln) s).values = pushBack s.values (makeKey s.sectionName line.name) line.value

/-- What has to be seen of a line: the separator, and the value if there is one. -/
def ValueLine.needed (line : ValueLine) : Bytes :=
  (line.name ++ line.before) ++ line.sep :: (if line.value = [] then [] else line.after ++ line.value)

/-- When the value of a line is stored. -/
structure Storable (line : ValueLine) (file : Bytes) : Prop where
  /-- It is the line of a name: it begins neither with a mark nor with a space. -/
  mark : ∀ c, line.name.head? = some c → c ≠ 59 ∧ c ≠ 35 ∧ c ≠ 91
  column_one : line.name = [] → line.before = []
  /-- The value is one word without a mark. -/
  word : ∀ c ∈ line.value, plain c = true
  /-- The name and the value are in the buffer, before any zero. -/
  inside : line.needed <+: seen file
  /-- There is no equals sign on a line with a colon. -/
  equals : line.sep = 58 → 61 ∉ seen file

/-! ## Values -/

theorem valueOf_mono {t u : Bytes} (isPrefix : t <+: u) : valueOf t <+: valueOf u :=
  takeWhile_prefix_mono (dropWhile_prefix_mono isPrefix)

theorem valueOf_spaces {spaces : Bytes} (blank : ∀ c ∈ spaces, isSpace c = true) (text : Bytes) :
    valueOf (spaces ++ text) = valueOf text := by
  rw [valueOf, List.dropWhile_append_of_pos blank]
  rfl

/-- A text that begins with a visible character. -/
theorem valueOf_visible {text : Bytes} (visible : text.head?.all (!isSpace ·) = true) :
    valueOf text = text.takeWhile plain := by
  cases text with
  | nil => rfl
  | cons c text =>
      rw [valueOf, List.dropWhile_cons_of_neg (by simpa using visible)]

/-- A comment has no value. -/
theorem valueOf_remark (line : ValueLine) {newline : Bytes} (ends : newline = [] ∨ newline = [10]) :
    valueOf (line.remark ++ newline) = [] ∧ (line.remark ++ newline).takeWhile plain = [] := by
  rcases line.remark_form with none | ⟨spaces, text, some_space, blank, form⟩
  · rw [none]
    rcases ends with rfl | rfl <;> exact ⟨rfl, rfl⟩
  · rw [form, List.append_assoc]
    refine ⟨?_, ?_⟩
    · rw [valueOf_spaces blank]
      rfl
    · obtain ⟨first, others, rfl⟩ := List.exists_cons_of_ne_nil some_space
      exact List.takeWhile_cons_of_neg (by simp [plain, blank first List.mem_cons_self])

/-- The value that stands behind the separator: the first word of the value. -/
theorem valueOf_rest (line : ValueLine) {newline : Bytes} (ends : newline = [] ∨ newline = [10]) :
    valueOf (line.rest ++ newline) = line.value.takeWhile plain := by
  obtain ⟨no_value, stops⟩ := valueOf_remark line ends
  rw [ValueLine.rest, List.append_assoc, valueOf_spaces line.after_spaces, List.append_assoc]
  cases shape : line.value with
  | nil => exact no_value
  | cons first others =>
      have visible : ((first :: others) ++ (line.remark ++ newline)).head?.all (!isSpace ·) = true := by
        have := line.value_trimmed.1
        rwa [shape] at this
      rw [valueOf_visible visible]
      by_cases all : ∀ c ∈ first :: others, plain c = true
      · rw [List.takeWhile_append_of_pos all, stops, List.append_nil,
          List.takeWhile_eq_self_iff.mpr all]
      · push Not at all
        obtain ⟨c, member, fails⟩ := all
        exact takeWhile_append_of_mem member (by simpa using fails) _

/-! ## What is pushed back -/

section PushBack

variable {values : OrderedMap Bytes (List Bytes)}

theorem find?_pushBack (values : OrderedMap Bytes (List Bytes)) (key other value : Bytes) :
    (pushBack values key value).find? other =
      if key = other then some ((values.find? key).getD [] ++ [value]) else values.find? other := by
  rw [pushBack, OrderedMap.find?_set]
  by_cases same : key = other
  · rw [if_pos same, if_pos same]
  · rw [if_neg same, if_neg same]

/-- Something is stored. -/
theorem pushBack_ne (key value : Bytes) : pushBack values key value ≠ values := by
  intro same
  have there := find?_pushBack values key key value
  rw [same, if_pos rfl] at there
  have longer := congrArg (fun list => (list.getD []).length) there
  simp only [Option.getD_some, List.length_append, List.length_singleton] at longer
  omega

/-- What is stored, and where, can be told from the values. -/
theorem pushBack_inj {key key' value value' : Bytes}
    (same : pushBack values key value = pushBack values key' value') :
    key = key' ∧ value = value' := by
  have there := find?_pushBack values key key value
  rw [same, if_pos rfl, find?_pushBack] at there
  by_cases equal : key' = key
  · subst equal
    rw [if_pos rfl] at there
    exact ⟨rfl, (List.append_inj_right' (Option.some_inj.mp there) rfl |> List.cons.inj).1.symm⟩
  · rw [if_neg equal] at there
    have longer := congrArg (fun list => (list.getD []).length) there
    simp only [Option.getD_some, List.length_append, List.length_singleton] at longer
    omega

theorem makeKey_length (sectionName name : Bytes) :
    (makeKey sectionName name).length = sectionName.length + 1 + name.length := by
  simp [makeKey, ascii]
  omega

end PushBack

/-! ## What is seen of a line -/

section Seen

variable {line : ValueLine} {tail : Bytes}

theorem ValueLine.one_line_text (line : ValueLine) : 10 ∉ line.text := by
  obtain ⟨name, before, after, value, remark⟩ := line.one_line
  have sep : (10 : UInt8) ≠ line.sep := by
    rcases line.separator with equals | colon
    · rw [equals]; decide
    · rw [colon]; decide
  simp [text, rest, name, before, after, value, remark, sep]

/-- What follows the line is a newline, or nothing. -/
def EndsLine (tail : Bytes) : Prop := tail = [] ∨ ∃ more, tail = 10 :: more

theorem EndsLine.newline (ends : EndsLine tail) : tail.take 1 = [] ∨ tail.take 1 = [10] := by
  rcases ends with rfl | ⟨more, rfl⟩
  · exact .inl rfl
  · exact .inr rfl

theorem prefix_throughNewline {text u : Bytes} (one : 10 ∉ text) (ends : EndsLine tail)
    (isPrefix : u <+: text ++ tail) : throughNewline u <+: text ++ tail.take 1 := by
  rcases prefix_append_or isPrefix with short | ⟨more, rfl, rest⟩
  · have one_u : 10 ∉ u := fun member => one (short.subset member)
    rw [throughNewline_last one_u]
    exact short.trans (List.prefix_append _ _)
  · cases more with
    | nil =>
        rw [List.append_nil, throughNewline_last one]
        exact List.prefix_append _ _
    | cons c more =>
        rcases ends with rfl | ⟨behind, rfl⟩
        · exact absurd (List.prefix_nil.mp rest) (List.cons_ne_nil _ _)
        · have newline : c = 10 := (List.cons_prefix_cons.mp rest).1
          subst newline
          rw [throughNewline_cons one]
          exact List.prefix_rfl

/-- The scanner sees a prefix of the line and its newline. -/
theorem prefix_seen (line : ValueLine) (ends : EndsLine tail) :
    seen (line.text ++ tail) <+: line.text ++ tail.take 1 :=
  (List.takeWhile_prefix _).trans
    (prefix_throughNewline line.one_line_text ends (List.take_prefix _ _))

/-- If a character is seen that does not stand before the separator, the separator is seen. -/
theorem split_of_mem {front rest t : Bytes} {sep c : UInt8} (apart : c ∉ front)
    (isPrefix : t <+: front ++ sep :: rest) (member : c ∈ t) :
    ∃ more, t = front ++ sep :: more ∧ more <+: rest := by
  rcases prefix_append_or isPrefix with short | ⟨more, rfl, after⟩
  · exact absurd (short.subset member) apart
  · cases more with
    | nil =>
        rw [List.append_nil] at member
        exact absurd member apart
    | cons d more =>
        obtain ⟨rfl, behind⟩ := List.cons_prefix_cons.mp after
        exact ⟨more, rfl, behind⟩

theorem ValueLine.before_plain (line : ValueLine) {c : UInt8} (visible : isSpace c = false)
    (name : c ∉ line.name) : c ∉ line.name ++ line.before := fun member => by
  rcases List.mem_append.mp member with inside | space
  · exact name inside
  · rw [line.before_spaces c space] at visible
    cases visible

/-- A text with a separator is split at it. -/
theorem splitAt_append {front : Bytes} {sep : UInt8} (apart : sep ∉ front) (more : Bytes) :
    splitAt sep (front ++ sep :: more) = some (LineScanner.rstrip front, valueOf more) := by
  have passed : ∀ c ∈ front, decide (c ≠ sep) = true := fun c member => by
    simpa using fun same : c = sep => apart (same ▸ member)
  have here : sep ∈ front ++ sep :: more := by simp
  rw [splitAt, if_pos here, List.takeWhile_append_of_pos passed, List.dropWhile_append_of_pos passed,
    List.takeWhile_cons_of_neg (by simp), List.dropWhile_cons_of_neg (by simp), List.append_nil]
  rfl

theorem rstrip_trimmed {s : Bytes} (trimmed : Trimmed s) : LineScanner.rstrip s = s := by
  refine List.rdropWhile_eq_self_iff.mpr fun some_char => ?_
  have last := trimmed.2
  rw [List.getLast?_eq_some_getLast some_char] at last
  simpa using last

/-- The name before a separator. -/
theorem splitAt_front (line : ValueLine) {sep : UInt8} (visible : isSpace sep = false)
    (name : sep ∉ line.name) (more : Bytes) :
    splitAt sep ((line.name ++ line.before) ++ sep :: more) = some (line.name, valueOf more) := by
  rw [splitAt_append (line.before_plain visible name),
    LineScanner.rstrip_append_spaces line.before_spaces, rstrip_trimmed line.name_trimmed]

/-! ## When the value is stored -/

theorem text_ne_nil (line : ValueLine) (tail : Bytes) : line.text ++ tail ≠ [] := by
  simp [ValueLine.text]

/-- One turn of the loop, by what is seen. -/
theorem storesExactly_iff {s : Parsing} (going : s.err = false) (line : ValueLine) (tail : Bytes) :
    StoresExactly s line (line.text ++ tail) ↔
      (s.apply (kind (seen (line.text ++ tail)))).err = false ∧
        (s.apply (kind (seen (line.text ++ tail)))).sectionName = s.sectionName ∧
        (s.apply (kind (seen (line.text ++ tail)))).values =
          pushBack s.values (makeKey s.sectionName line.name) line.value := by
  have read : fgets MAX_LINE (line.text ++ tail) =
      some (throughNewline ((line.text ++ tail).take (MAX_LINE - 1)),
        (line.text ++ tail).drop (throughNewline ((line.text ++ tail).take (MAX_LINE - 1))).length) := by
    rw [fgets, if_neg (text_ne_nil line tail)]
  have step := parseLine_eq (zero_not_mem_cstr
    (throughNewline ((line.text ++ tail).take (MAX_LINE - 1)))) going
  constructor
  · rintro ⟨ln, more, found, stored⟩
    rw [read] at found
    obtain ⟨rfl, -⟩ := Prod.mk.inj (Option.some_inj.mp found)
    rw [step] at stored
    exact stored
  · intro stored
    exact ⟨_, _, read, by rw [step]; exact stored⟩

/-- The first character of what is seen. -/
theorem firstChar_of_head {t : Bytes} {c : UInt8} (head : t.head? = some c)
    (visible : isSpace c = false) : firstChar t = some c := by
  cases t with
  | nil => cases head
  | cons first t =>
      cases head
      rw [firstChar, List.dropWhile_cons_of_neg (Bool.eq_false_iff.mp visible)]
      rfl

theorem kind_named {t : Bytes} {c : UInt8} (head : t.head? = some c) (visible : isSpace c = false)
    (mark : c ≠ 59 ∧ c ≠ 35 ∧ c ≠ 91) : kind t = .named ((splitAt 61 t).or (splitAt 58 t)) := by
  have no_comment : ¬ (c = 59 ∨ c = 35) := fun opened => opened.elim mark.1 mark.2.1
  have column_one : ¬ t.head?.any isSpace = true := by simp [head, visible]
  rw [kind_of_firstChar (firstChar_of_head head visible), if_neg no_comment, if_neg mark.2.2,
    if_neg column_one]

/-- The first character of a line is that of its name, or its separator. -/
theorem head?_needed {line : ValueLine} (column_one : line.name = [] → line.before = [])
    (mark : ∀ c, line.name.head? = some c → c ≠ 59 ∧ c ≠ 35 ∧ c ≠ 91) (more : Bytes) :
    ∃ c, ((line.name ++ line.before) ++ line.sep :: more).head? = some c ∧ isSpace c = false ∧
      c ≠ 59 ∧ c ≠ 35 ∧ c ≠ 91 := by
  cases name : line.name with
  | nil =>
      refine ⟨line.sep, by simp [column_one name], ?_⟩
      rcases line.separator with equals | colon
      · rw [equals]; decide
      · rw [colon]; decide
  | cons c others =>
      have visible := line.name_trimmed.1
      rw [name] at visible mark
      exact ⟨c, rfl, by simpa using visible, mark c rfl⟩

/-- A storable value is found. -/
theorem Storable.stores {line : ValueLine} {tail : Bytes} (ends : EndsLine tail)
    (storable : Storable line (line.text ++ tail)) {s : Parsing} (going : s.err = false) :
    StoresExactly s line (line.text ++ tail) := by
  obtain ⟨front, needed⟩ := storable.inside
  -- What is seen behind the separator holds the value.
  obtain ⟨more, shape, covers⟩ : ∃ more, seen (line.text ++ tail) =
      (line.name ++ line.before) ++ line.sep :: more ∧
        (if line.value = [] then [] else line.after ++ line.value) <+: more := by
    refine ⟨(if line.value = [] then [] else line.after ++ line.value) ++ front, ?_,
      List.prefix_append _ _⟩
    rw [← needed, ValueLine.needed, List.append_assoc, List.cons_append]
  have isPrefix := prefix_seen line ends
  rw [shape, line.text_append, List.prefix_append_right_inj, List.cons_prefix_cons] at isPrefix
  have below := valueOf_mono isPrefix.2
  rw [valueOf_rest line ends.newline, List.takeWhile_eq_self_iff.mpr storable.word] at below
  have value : valueOf more = line.value := by
    by_cases empty : line.value = []
    · rw [empty] at below ⊢
      exact List.prefix_nil.mp below
    · rw [if_neg empty] at covers
      have above := valueOf_mono covers
      rw [valueOf_spaces line.after_spaces, valueOf_visible line.value_trimmed.1,
        List.takeWhile_eq_self_iff.mpr storable.word] at above
      exact below.eq_of_length_le above.length_le
  obtain ⟨c, head, visible, mark⟩ := head?_needed storable.column_one storable.mark more
  have split : (splitAt 61 (seen (line.text ++ tail))).or (splitAt 58 (seen (line.text ++ tail))) =
      some (line.name, line.value) := by
    rcases line.separator with equals | colon
    · rw [shape, equals, splitAt_front line (by decide) line.name_plain.1, value]
      rfl
    · have none : splitAt 61 (seen (line.text ++ tail)) = none := if_neg (storable.equals colon)
      rw [none, Option.none_or, shape, colon, splitAt_front line (by decide) line.name_plain.2, value]
  rw [← shape] at head
  rw [storesExactly_iff going, kind_named head visible mark, split]
  exact ⟨going, rfl, rfl⟩

/-! ## When it is not -/

theorem kind_indented {t value : Bytes} (is : kind t = .indented value) :
    isSpace (t.headD 0) = true := by
  simp only [kind] at is
  split_ifs at is with _ _ spaced
  exact spaced

theorem kind_split {t : Bytes} {pair : Bytes × Bytes} (is : kind t = .named (some pair)) :
    (splitAt 61 t).or (splitAt 58 t) = some pair ∧ isSpace (t.headD 0) = false ∧
      t.headD 59 ≠ 59 ∧ t.headD 59 ≠ 35 ∧ t.headD 59 ≠ 91 := by
  simp only [kind] at is
  split_ifs at is with comment bracket spaced
  rw [dropWhile_of_headD spaced] at comment bracket
  obtain ⟨semicolon, hash⟩ := not_or.mp comment
  exact ⟨LineKind.named.inj is, by simpa using spaced, semicolon, hash, bracket⟩

/-- What stands before a visible character is not stripped. -/
theorem prefix_rstrip {sep : UInt8} (visible : isSpace sep = false) (front more : Bytes) :
    front ++ [sep] <+: LineScanner.rstrip (front ++ sep :: more) := by
  induction more using List.reverseRecOn with
  | nil =>
      rw [LineScanner.rstrip, List.rdropWhile_concat_neg _ _ _ (by simp [visible])]
  | append_singleton more last ih =>
      have regroup : front ++ sep :: (more ++ [last]) = (front ++ sep :: more) ++ [last] := by simp
      rw [regroup]
      by_cases space : isSpace last = true
      · rw [LineScanner.rstrip, List.rdropWhile_concat_pos _ _ _ space]
        exact ih
      · rw [LineScanner.rstrip, List.rdropWhile_concat_neg _ _ _ space]
        exact ⟨more ++ [last], by simp⟩

/-- A name that ends at an equals sign behind the colon is longer. -/
theorem ValueLine.longer_name (line : ValueLine) {more name value : Bytes}
    (split : splitAt 61 ((line.name ++ line.before) ++ 58 :: more) = some (name, value)) :
    line.name.length < name.length := by
  have apart := line.before_plain (c := 61) (by decide) line.name_plain.1
  have passed : ∀ c ∈ line.name ++ line.before, decide (c ≠ 61) = true := fun c member => by
    simpa using fun same : c = 61 => apart (same ▸ member)
  rw [splitAt] at split
  split_ifs at split with equals
  obtain ⟨rfl, -⟩ := Prod.mk.inj (Option.some_inj.mp split)
  rw [List.takeWhile_append_of_pos passed, List.takeWhile_cons_of_pos (by decide)]
  have long := (prefix_rstrip (by decide : isSpace 58 = false) (line.name ++ line.before)
    (more.takeWhile (· ≠ 61))).length_le
  simp only [List.length_append, List.length_singleton] at long
  omega

/-- What is seen of a line with a separator. -/
theorem split_named {line : ValueLine} {t newline name value : Bytes}
    (isPrefix : t <+: line.text ++ newline)
    (split : (splitAt 61 t).or (splitAt 58 t) = some (name, value))
    (length : name.length = line.name.length) :
    (line.sep = 58 → 61 ∉ t) ∧ ∃ more, t = (line.name ++ line.before) ++ line.sep :: more ∧
      more <+: line.rest ++ newline ∧ value = valueOf more := by
  rw [line.text_append] at isPrefix
  by_cases equals : 61 ∈ t
  · obtain ⟨more, rfl, behind⟩ := split_of_mem (line.before_plain (by decide) line.name_plain.1)
      isPrefix equals
    have first : splitAt 61 ((line.name ++ line.before) ++ line.sep :: more) = some (name, value) := by
      rw [splitAt, if_pos equals] at split ⊢
      exact split
    rcases line.separator with sep | colon
    · have found := splitAt_front line (by decide : isSpace 61 = false) line.name_plain.1 more
      rw [sep, found] at first
      refine ⟨fun colon => ?_, more, rfl, behind, (Prod.mk.inj (Option.some_inj.mp first)).2.symm⟩
      rw [sep] at colon
      cases colon
    · rw [colon] at first
      have longer := line.longer_name first
      omega
  · have colon : 58 ∈ t := by
      by_contra missing
      rw [splitAt, splitAt, if_neg equals, if_neg missing] at split
      cases split
    obtain ⟨more, rfl, behind⟩ := split_of_mem (line.before_plain (by decide) line.name_plain.2)
      isPrefix colon
    have sep : line.sep = 58 := by
      refine line.separator.resolve_left fun sep => equals ?_
      rw [sep]
      simp
    refine ⟨fun _ => equals, more, rfl, behind, ?_⟩
    have none : splitAt 61 ((line.name ++ line.before) ++ line.sep :: more) = none := if_neg equals
    have found := splitAt_front line (by decide : isSpace 58 = false) line.name_plain.2 more
    rw [none, Option.none_or, sep, found] at split
    exact (Prod.mk.inj (Option.some_inj.mp split)).2.symm

/-- A value that is found is in what is seen. -/
theorem prefix_of_valueOf {line : ValueLine} {more newline : Bytes}
    (behind : more <+: line.rest ++ newline) (found : valueOf more = line.value) :
    (if line.value = [] then [] else line.after ++ line.value) <+: more := by
  by_cases empty : line.value = []
  · rw [if_pos empty]
    exact List.nil_prefix
  rw [if_neg empty]
  rw [ValueLine.rest, List.append_assoc] at behind
  rcases prefix_append_or behind with spaces | ⟨text, rfl, after⟩
  · have blank : more.dropWhile isSpace = [] :=
      List.dropWhile_eq_nil_iff.mpr fun c member => line.after_spaces c (spaces.subset member)
    rw [valueOf, blank] at found
    exact absurd found.symm empty
  · rw [valueOf_spaces line.after_spaces] at found
    have visible : text.head?.all (!isSpace ·) = true := by
      cases text with
      | nil => rfl
      | cons c text =>
          obtain ⟨first, others, value⟩ := List.exists_cons_of_ne_nil empty
          have begins := line.value_trimmed.1
          rw [value, List.append_assoc, List.cons_append] at after
          rw [value] at begins
          rw [(List.cons_prefix_cons.mp after).1]
          exact begins
    rw [valueOf_visible visible] at found
    rw [List.prefix_append_right_inj, ← found]
    exact List.takeWhile_prefix _

/-- How a line begins. -/
theorem seen_begins {line : ValueLine} {tail : Bytes} (ends : EndsLine tail) {c : UInt8} {others : Bytes}
    (text : seen (line.text ++ tail) = c :: others) :
    (line.name = [] → line.before ≠ [] → isSpace c = true) ∧
      ∀ first, line.name.head? = some first → c = first := by
  have isPrefix := prefix_seen line ends
  rw [text, line.text_append] at isPrefix
  refine ⟨fun name before => ?_, fun first head => ?_⟩
  · obtain ⟨space, spaces, some_space⟩ := List.exists_cons_of_ne_nil before
    rw [name, some_space] at isPrefix
    rw [(List.cons_prefix_cons.mp isPrefix).1]
    exact line.before_spaces space (some_space ▸ List.mem_cons_self)
  · obtain ⟨name, form⟩ := List.head?_eq_some_iff.mp head
    rw [form] at isPrefix
    exact (List.cons_prefix_cons.mp isPrefix).1

/-- A line that begins with a name is not indented. -/
theorem name_of_indented {line : ValueLine} {tail value : Bytes} (ends : EndsLine tail)
    (is : kind (seen (line.text ++ tail)) = .indented value) : line.name = [] := by
  by_contra some_name
  have spaced := kind_indented is
  cases text : seen (line.text ++ tail) with
  | nil =>
      rw [text] at spaced
      exact absurd spaced (by decide)
  | cons c others =>
      rw [text] at spaced
      have space : isSpace c = true := spaced
      obtain ⟨first, name, form⟩ := List.exists_cons_of_ne_nil some_name
      have same := (seen_begins ends text).2 first (by rw [form]; rfl)
      have visible := line.name_trimmed.1
      rw [form, ← same] at visible
      simp [space] at visible

/-- A value that is stored is storable. -/
theorem StoresExactly.storable {line : ValueLine} {tail : Bytes} (ends : EndsLine tail)
    {s : Parsing} (going : s.err = false) (stored : StoresExactly s line (line.text ++ tail)) :
    Storable line (line.text ++ tail) := by
  obtain ⟨accepted, -, values⟩ := (storesExactly_iff going line tail).mp stored
  cases is : kind (seen (line.text ++ tail)) with
  | ignored =>
      rw [is] at values
      exact absurd values.symm (pushBack_ne _ _)
  | bracket sectionName =>
      rw [is] at values
      exact absurd values.symm (pushBack_ne _ _)
  | indented value =>
      rw [is] at values accepted
      by_cases named : s.key ≠ []
      · rw [Parsing.apply, if_pos named] at values
        have same : makeKey s.sectionName s.key = makeKey s.sectionName line.name :=
          (pushBack_inj values).1
        have lengths := congrArg List.length same
        rw [makeKey_length, makeKey_length] at lengths
        have some_name : line.name ≠ [] := fun none => by
          rw [none, List.length_nil] at lengths
          exact named (List.length_eq_zero_iff.mp (by omega))
        exact absurd (name_of_indented ends is) some_name
      · rw [Parsing.apply, if_neg named] at accepted
        cases accepted
  | named pair =>
      cases pair with
      | none =>
          rw [is] at accepted
          cases accepted
      | some pair =>
          obtain ⟨name, value⟩ := pair
          rw [is] at values
          obtain ⟨same_key, same_value⟩ : makeKey s.sectionName name = makeKey s.sectionName line.name ∧
              value = line.value := pushBack_inj values
          have lengths := congrArg List.length same_key
          rw [makeKey_length, makeKey_length] at lengths
          obtain ⟨split, visible, semicolon, hash, bracket⟩ := kind_split is
          obtain ⟨equals, more, whole, behind, found⟩ :=
            split_named (prefix_seen line ends) split (by omega)
          rw [same_value] at found
          have some_char : seen (line.text ++ tail) ≠ [] := by simp [whole]
          obtain ⟨c, others, text⟩ := List.exists_cons_of_ne_nil some_char
          rw [text] at visible semicolon hash bracket
          exact {
            mark := fun first head => by
              rw [← (seen_begins ends text).2 first head]
              exact ⟨semicolon, hash, bracket⟩
            column_one := fun name => by
              by_contra before
              exact absurd ((seen_begins ends text).1 name before) (Bool.eq_false_iff.mp visible)
            word := fun d member => by
              rw [found] at member
              exact List.mem_takeWhile_imp member
            inside := by
              rw [whole, ValueLine.needed, List.prefix_append_right_inj, List.cons_prefix_cons]
              exact ⟨rfl, prefix_of_valueOf behind found.symm⟩
            equals := equals }

end Seen

/-- **The value of a line is stored exactly if it is one word without a mark, the line is that of
a name, and the buffer and the other separator are not in the way.** -/
theorem value_stored_iff (line : ValueLine) {tail : Bytes} (ends : EndsLine tail) {s : Parsing}
    (going : s.err = false) :
    StoresExactly s line (line.text ++ tail) ↔ Storable line (line.text ++ tail) :=
  ⟨fun stored => stored.storable ends going, fun storable => storable.stores ends going⟩

/-- `one=This is a test  ; name=value comment`, a line of the file `normal.ini`. -/
def oneLine : ValueLine where
  name := ascii "one"
  before := []
  sep := 61
  after := []
  value := ascii "This is a test"
  remark := ascii "  ; name=value comment"
  separator := .inl rfl
  name_trimmed := by decide +kernel
  name_plain := by decide +kernel
  value_trimmed := by decide +kernel
  before_spaces := by decide +kernel
  after_spaces := by decide +kernel
  remark_form := .inr ⟨ascii "  ", ascii " name=value comment", by decide +kernel, by decide +kernel,
    by decide +kernel⟩
  one_line := by decide +kernel

theorem blank_spaces : ∀ c ∈ ascii " ", isSpace c = true := by decide +kernel

/-- `two = 1234`. -/
def twoLine : ValueLine where
  name := ascii "two"
  before := ascii " "
  sep := 61
  after := ascii " "
  value := ascii "1234"
  remark := []
  separator := .inl rfl
  name_trimmed := by decide +kernel
  name_plain := by decide +kernel
  value_trimmed := by decide +kernel
  before_spaces := blank_spaces
  after_spaces := blank_spaces
  remark_form := .inl rfl
  one_line := by decide +kernel

theorem value_stored_iff_two : StoresExactly (.start .empty) twoLine (twoLine.text ++ [10]) :=
  (value_stored_iff twoLine (.inr ⟨[], rfl⟩) rfl).mpr {
    mark := by decide +kernel
    column_one := by decide +kernel
    word := by decide +kernel
    inside := ⟨[10], by decide +kernel⟩
    equals := by decide +kernel }

/-- Only the first word is stored. -/
theorem first_word_stored : ¬ ∀ (line : ValueLine) (tail : Bytes), EndsLine tail →
    ∀ s : Parsing, s.err = false → StoresExactly s line (line.text ++ tail) := by
  intro always
  obtain ⟨ln, more, read, -, -, values⟩ :=
    always oneLine [10] (.inr ⟨[], rfl⟩) (.start .empty) rfl
  have line : fgets MAX_LINE (oneLine.text ++ [10]) = some (oneLine.text ++ [10], []) := by
    decide +kernel
  obtain ⟨rfl, -⟩ := Prod.mk.inj (Option.some_inj.mp (line.symm.trans read))
  have stored := congrArg (·.find? (ascii ".one")) values
  exact absurd stored (by decide +kernel)

end Conf

end Handy
