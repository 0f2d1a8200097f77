import Handy.Http.Text
import Handy.Lib.OrderedMap

/-!
# `Conf`

The reader of INI files: the scanner of a line, the loop of `Conf::parse` over the pieces that
`fgets` returns, and the lookups. A line is a byte string without its final zero, and a pointer
into it is what stands from there on; the scanner never reads behind the zero.

What one line means is said without the scanner by `kind`, and `parseLine_eq` says that the
scanner finds it.
-/

set_option autoImplicit false

namespace Handy

/-- `Conf`. -/
structure Conf where
  values : OrderedMap Bytes (List Bytes)
  filename : Bytes

namespace Conf

/-- A new `Conf`. -/
def new : Conf := ⟨.empty, []⟩

/-- `makeKey`. -/
def makeKey (sectionName name : Bytes) : Bytes := (sectionName ++ ascii "." ++ name).map toLower

/-- `Conf::get`; the lists in `values_` are not empty. -/
def get (conf : Conf) (sectionName name default_value : Bytes) : Bytes :=
  match conf.values.find? (makeKey sectionName name) with
  | none => default_value
  | some list => list.getLastD default_value

/-- `Conf::getStrings`. -/
def getStrings (conf : Conf) (sectionName name : Bytes) : List Bytes :=
  (conf.values.find? (makeKey sectionName name)).getD []

/-- `values_[key].push_back(value)`. -/
def pushBack (values : OrderedMap Bytes (List Bytes)) (key value : Bytes) :
    OrderedMap Bytes (List Bytes) :=
  values.set key ((values.find? key).getD [] ++ [value])

/-- `LineScanner`. -/
structure LineScanner where
  p : Bytes
  err : Bool
  deriving DecidableEq, Repr

namespace LineScanner

def skipSpaces (ls : LineScanner) : LineScanner :=
  if ls.err then ls else { ls with p := ls.p.dropWhile isSpace }

/-- The string between two pointers, without the spaces at its end. -/
def rstrip (s : Bytes) : Bytes := s.rdropWhile isSpace

/-- `*p`. -/
def deref (ls : LineScanner) : UInt8 := ls.p.headD 0

def peekChar (ls : LineScanner) : UInt8 × LineScanner :=
  let ls := ls.skipSpaces
  (ls.deref, ls)

def skip (ls : LineScanner) (i : ℕ) : LineScanner := { ls with p := ls.p.drop i }

/-- `match`. -/
def matchChar (ls : LineScanner) (c : UInt8) : LineScanner :=
  let ls := ls.skipSpaces
  ⟨ls.p.tail, ls.deref != c⟩

def consumeTill (ls : LineScanner) (c : UInt8) : Bytes × LineScanner :=
  let ls := ls.skipSpaces
  let s := if ls.err then [] else ls.p.takeWhile (· ≠ c)
  let e := ls.p.drop s.length
  if e.headD 0 ≠ c then ([], { ls with err := true }) else (rstrip s, { ls with p := e })

/-- How far the loop of `consumeTillEnd` goes. -/
def valueLength (wasspace : Bool) : Bytes → ℕ
  | [] => 0
  | c :: e =>
      if c = 59 ∨ c = 35 then 0
      else if wasspace then 0
      else valueLength (isSpace c) e + 1

def consumeTillEnd (ls : LineScanner) : Bytes × LineScanner :=
  let ls := ls.skipSpaces
  let length := if ls.err then 0 else valueLength false ls.p
  (rstrip (ls.p.take length), { ls with p := ls.p.drop length })

end LineScanner

/-- The variables of `Conf::parse`, and the values. The count of the lines is an `int`, and does not
overflow in a file of fewer than 2^31 of them. -/
structure Parsing where
  lineno : ℕ
  sectionName : Bytes
  key : Bytes
  err : Bool
  values : OrderedMap Bytes (List Bytes)

namespace Parsing

def start (values : OrderedMap Bytes (List Bytes)) : Parsing := ⟨0, [], [], false, values⟩

/-- `values_[makeKey(section, key)].push_back(value)`. -/
def push (s : Parsing) (value : Bytes) : Parsing :=
  { s with values := pushBack s.values (makeKey s.sectionName s.key) value }

end Parsing

/-- The body of the loop of `Conf::parse`. -/
def parseLine (ln : Bytes) (s : Parsing) : Parsing :=
  let s := { s with lineno := s.lineno + 1 }
  let (c, ls) := (LineScanner.mk ln false).peekChar
  if c = 59 ∨ c = 35 ∨ c = 0 then s
  else if c = 91 then
    let (sectionName, ls) := (ls.skip 1).consumeTill 93
    { s with sectionName := sectionName, err := (ls.matchChar 93).err, key := [] }
  else if isSpace (ln.headD 0) then
    if s.key ≠ [] then s.push (ls.consumeTill 0).1 else { s with err := true }
  else
    let lsc := ls
    let (key, ls) := ls.consumeTill 61
    let (c, ls) := ls.peekChar
    if c = 61 then
      { s with key := key }.push (ls.skip 1).consumeTillEnd.1
    else
      let (key, ls) := lsc.consumeTill 58
      let ls := ls.matchChar 58
      { s with key := key, err := ls.err }.push ls.consumeTillEnd.1

/-- The size of the buffer for a line. -/
def MAX_LINE : ℕ := 16 * 1024

/-- What stands before the first newline, and the newline. -/
def throughNewline (text : Bytes) : Bytes :=
  text.takeWhile (· ≠ 10) ++ (text.dropWhile (· ≠ 10)).take 1

/-- `fgets`: what it stores in the buffer, if anything is left, and the rest of the file. -/
def fgets (size : ℕ) (file : Bytes) : Option (Bytes × Bytes) :=
  if file = [] then none
  else
    let ln := throughNewline (file.take (size - 1))
    some (ln, file.drop ln.length)

/-- `while (!err && fgets(ln, MAX_LINE, file) != NULL)`. -/
def parseLoop : ℕ → Bytes → Parsing → Parsing
  | 0, _, s => s
  | fuel + 1, file, s =>
      if s.err then s
      else
        match fgets MAX_LINE file with
        | none => s
        | some (ln, file) => parseLoop fuel file (parseLine (cstr ln) s)

/-- `Conf::parse`, where `fopen` is what can be read under a name. -/
def parse (fopen : Bytes → Option Bytes) (conf : Conf) (filename : Bytes) : ℤ × Conf :=
  let conf := { conf with filename := filename }
  match fopen (cstr conf.filename) with
  | none => (-1, conf)
  | some file =>
      let s := parseLoop file.length file (.start conf.values)
      (if s.err then s.lineno else 0, { conf with values := s.values })

/-! ## What a line means -/

/-- What a line is. -/
inductive LineKind where
  /-- Empty, or a comment. -/
  | ignored
  /-- It begins with a bracket; the section, if the bracket is closed. -/
  | bracket (sectionName : Option Bytes)
  /-- It begins with a space. -/
  | indented (value : Bytes)
  /-- The name and the value, if there is a separator. -/
  | named (pair : Option (Bytes × Bytes))
  deriving DecidableEq, Repr

/-- A character that a value goes on with. -/
def plain (c : UInt8) : Bool := !isSpace c && c != 59 && c != 35

/-- The value behind a separator: the first word, up to a comment. -/
def valueOf (text : Bytes) : Bytes := (text.dropWhile isSpace).takeWhile plain

/-- A name line is split at its first separator of a kind, if it has one. -/
def splitAt (sep : UInt8) (ln : Bytes) : Option (Bytes × Bytes) :=
  if sep ∈ ln then
    some (LineScanner.rstrip (ln.takeWhile (· ≠ sep)), valueOf (ln.dropWhile (· ≠ sep)).tail)
  else none

/-- What a line is. -/
def kind (ln : Bytes) : LineKind :=
  let text := ln.dropWhile isSpace
  if text.headD 59 = 59 ∨ text.headD 59 = 35 then .ignored
  else if text.headD 59 = 91 then
    .bracket (if 93 ∈ text.tail then
      some (LineScanner.rstrip ((text.tail.dropWhile isSpace).takeWhile (· ≠ 93))) else none)
  else if isSpace (ln.headD 0) then .indented (LineScanner.rstrip text)
  else .named ((splitAt 61 ln).or (splitAt 58 ln))

/-- What a line of a kind does. -/
def Parsing.apply (s : Parsing) : LineKind → Parsing
  | .ignored => { s with lineno := s.lineno + 1 }
  | .bracket sectionName =>
      { s with
        lineno := s.lineno + 1, sectionName := sectionName.getD [], key := []
        err := sectionName.isNone }
  | .indented value =>
      if s.key ≠ [] then { s with lineno := s.lineno + 1 }.push value
      else { s with lineno := s.lineno + 1, err := true }
  | .named none => { s with lineno := s.lineno + 1, key := [], err := true }.push []
  | .named (some (key, value)) => { s with lineno := s.lineno + 1, key := key }.push value

/-! ## The scanner finds it -/

/-- A character that is not a space is not skipped. -/
theorem mem_dropWhile_isSpace {c : UInt8} (visible : isSpace c = false) {s : Bytes} :
    c ∈ s.dropWhile isSpace ↔ c ∈ s := by
  refine ⟨fun member => (List.dropWhile_suffix _).subset member, fun member => ?_⟩
  rw [← List.takeWhile_append_dropWhile (p := isSpace) (l := s)] at member
  rcases List.mem_append.mp member with skipped | rest
  · rw [List.mem_takeWhile_imp skipped] at visible
    cases visible
  · exact rest

/-- The text from a character on that is there. -/
theorem dropWhile_eq_cons {c : UInt8} {s : Bytes} (member : c ∈ s) :
    s.dropWhile (· ≠ c) = c :: (s.dropWhile (· ≠ c)).tail := by
  have stops := List.head?_dropWhile_not (fun d => decide (d ≠ c)) s
  cases rest : s.dropWhile (· ≠ c) with
  | nil =>
      have := List.dropWhile_eq_nil_iff.mp rest c member
      simp at this
  | cons first rest' =>
      rw [rest] at stops
      have same : first = c := by simpa using stops
      rw [same]
      rfl

namespace LineScanner

theorem rstrip_append_spaces {s spaces : Bytes} (blank : ∀ c ∈ spaces, isSpace c = true) :
    rstrip (s ++ spaces) = rstrip s := by
  induction spaces using List.reverseRecOn with
  | nil => rw [List.append_nil]
  | append_singleton front last ih =>
      rw [rstrip, ← List.append_assoc, List.rdropWhile_concat_pos _ _ _ (blank last (by simp))]
      exact ih fun c member => blank c (List.mem_append_left _ member)

theorem rstrip_of_plain {s : Bytes} (word : ∀ c ∈ s, isSpace c = false) : rstrip s = s := by
  refine List.rdropWhile_eq_self_iff.mpr fun some_char => ?_
  rw [word _ (List.getLast_mem some_char)]
  exact Bool.false_ne_true

/-- The loop goes to the end of the first word, or one character further. -/
theorem take_valueLength (text : Bytes) :
    text.take (valueLength false text) = text.takeWhile plain ∨
      ∃ c, isSpace c = true ∧
        text.take (valueLength false text) = text.takeWhile plain ++ [c] := by
  induction text with
  | nil => exact .inl rfl
  | cons c e ih =>
      by_cases comment : c = 59 ∨ c = 35
      · left
        rw [valueLength, if_pos comment, List.takeWhile_cons_of_neg (by
          rcases comment with rfl | rfl <;> decide)]
        rfl
      · rw [valueLength, if_neg comment]
        simp only [Bool.false_eq_true, if_false, List.take_succ_cons]
        obtain ⟨not_semicolon, not_hash⟩ := not_or.mp comment
        cases space : isSpace c with
        | true =>
            -- The next character ends the loop, whatever it is.
            have stops : valueLength true e = 0 := by
              cases e with
              | nil => rfl
              | cons next e => simp [valueLength]
            right
            refine ⟨c, space, ?_⟩
            rw [stops, List.takeWhile_cons_of_neg (by simp [plain, space])]
            rfl
        | false =>
            have goes : plain c = true := by simp [plain, space, not_semicolon, not_hash]
            rw [List.takeWhile_cons_of_pos goes]
            rcases ih with short | ⟨last, blank, long⟩
            · exact .inl (by rw [short])
            · exact .inr ⟨last, blank, by rw [long]; rfl⟩

/-- `consumeTillEnd` returns the first word. -/
theorem consumeTillEnd_eq (p : Bytes) : (consumeTillEnd ⟨p, false⟩).1 = valueOf p := by
  have word : ∀ c ∈ (p.dropWhile isSpace).takeWhile plain, isSpace c = false := by
    intro c member
    have := List.mem_takeWhile_imp member
    simp only [plain, Bool.and_eq_true, Bool.not_eq_true'] at this
    exact this.1.1
  show rstrip ((p.dropWhile isSpace).take (valueLength false (p.dropWhile isSpace))) = _
  rw [valueOf]
  rcases take_valueLength (p.dropWhile isSpace) with short | ⟨c, space, long⟩
  · rw [short, rstrip_of_plain word]
  · rw [long, rstrip_append_spaces (by simpa using space), rstrip_of_plain word]

theorem drop_length_takeWhile (p : UInt8 → Bool) (s : Bytes) :
    s.drop (s.takeWhile p).length = s.dropWhile p := by
  have split := congrArg (List.drop (s.takeWhile p).length)
    (List.takeWhile_append_dropWhile (p := p) (l := s))
  rw [List.drop_left' rfl] at split
  exact split.symm

/-- A character that is there is found. -/
theorem consumeTill_found {c : UInt8} {p : Bytes} (member : c ∈ p.dropWhile isSpace) :
    consumeTill ⟨p, false⟩ c = (rstrip ((p.dropWhile isSpace).takeWhile (· ≠ c)),
      ⟨(p.dropWhile isSpace).dropWhile (· ≠ c), false⟩) := by
  have found : ((p.dropWhile isSpace).dropWhile (· ≠ c)).headD 0 = c := by
    rw [dropWhile_eq_cons member]
    rfl
  simp only [consumeTill, skipSpaces, Bool.false_eq_true, if_false, drop_length_takeWhile, found,
    ne_eq, not_true_eq_false]

/-- A character that is not there is an error, and the scanner stays before it. -/
theorem consumeTill_missing {c : UInt8} (nonzero : c ≠ 0) {p : Bytes}
    (missing : c ∉ p.dropWhile isSpace) :
    consumeTill ⟨p, false⟩ c = ([], ⟨p.dropWhile isSpace, true⟩) := by
  have all : (p.dropWhile isSpace).dropWhile (· ≠ c) = [] :=
    List.dropWhile_eq_nil_iff.mpr fun d member => by
      simpa using fun same : d = c => missing (same ▸ member)
  have other : (0 : UInt8) ≠ c := nonzero.symm
  simp only [consumeTill, skipSpaces, Bool.false_eq_true, if_false, drop_length_takeWhile, all,
    List.headD_nil, ne_eq, other, not_false_eq_true, if_true]

/-- The rest of a line. -/
theorem consumeTill_zero {p : Bytes} (clean : 0 ∉ p) :
    (consumeTill ⟨p, false⟩ 0).1 = rstrip (p.dropWhile isSpace) := by
  have passed : ∀ c ∈ p.dropWhile isSpace, decide (c ≠ 0) = true := fun c member => by
    simpa using fun same : c = 0 => clean (same ▸ (List.dropWhile_suffix _).subset member)
  simp only [consumeTill, skipSpaces, Bool.false_eq_true, if_false,
    List.takeWhile_eq_self_iff.mpr passed, List.drop_length, List.headD_nil, ne_eq,
    not_true_eq_false]

end LineScanner

/-- After the character that was searched for. -/
theorem matchChar_found {c : UInt8} (visible : isSpace c = false) (rest : Bytes) :
    LineScanner.matchChar ⟨c :: rest, false⟩ c = ⟨rest, false⟩ := by
  simp [LineScanner.matchChar, LineScanner.skipSpaces, LineScanner.deref,
    List.dropWhile_cons_of_neg, visible]

theorem matchChar_missing {c : UInt8} (nonzero : c ≠ 0) {p : Bytes} (missing : c ∉ p) :
    LineScanner.matchChar ⟨p, true⟩ c = ⟨p.tail, true⟩ := by
  have other : p.headD 0 ≠ c := by
    cases p with
    | nil => exact nonzero.symm
    | cons first rest => exact fun same => missing (same ▸ List.mem_cons_self)
  simpa [LineScanner.matchChar, LineScanner.skipSpaces, LineScanner.deref] using other

/-- The line of a section. -/
theorem bracket_eq (rest : Bytes) (s : Parsing) :
    { s with
      lineno := s.lineno + 1
      sectionName := (LineScanner.consumeTill ⟨rest, false⟩ 93).1
      err := ((LineScanner.consumeTill ⟨rest, false⟩ 93).2.matchChar 93).err
      key := [] } =
      s.apply (.bracket (if 93 ∈ rest then
        some (LineScanner.rstrip ((rest.dropWhile isSpace).takeWhile (· ≠ 93))) else none)) := by
  have visible : isSpace 93 = false := by decide
  by_cases closed : 93 ∈ rest
  · have found := (mem_dropWhile_isSpace visible).mpr closed
    rw [if_pos closed, LineScanner.consumeTill_found found, dropWhile_eq_cons found,
      matchChar_found visible]
    rfl
  · have missing := fun member => closed ((mem_dropWhile_isSpace visible).mp member)
    rw [if_neg closed, LineScanner.consumeTill_missing (by decide) missing,
      matchChar_missing (by decide) missing]
    rfl

/-- The line of a name. -/
theorem named_eq {ln : Bytes} (column_one : ln.dropWhile isSpace = ln) {s : Parsing}
    (going : s.err = false) :
    (if ((LineScanner.consumeTill ⟨ln, false⟩ 61).2.peekChar).1 = 61 then
      { s with lineno := s.lineno + 1, key := (LineScanner.consumeTill ⟨ln, false⟩ 61).1 }.push
        (((LineScanner.consumeTill ⟨ln, false⟩ 61).2.peekChar).2.skip 1).consumeTillEnd.1
    else
      { s with
        lineno := s.lineno + 1
        key := (LineScanner.consumeTill ⟨ln, false⟩ 58).1
        err := ((LineScanner.consumeTill ⟨ln, false⟩ 58).2.matchChar 58).err }.push
        (((LineScanner.consumeTill ⟨ln, false⟩ 58).2.matchChar 58).consumeTillEnd).1) =
      s.apply (.named ((splitAt 61 ln).or (splitAt 58 ln))) := by
  have visible : isSpace 61 = false := by decide
  have visible' : isSpace 58 = false := by decide
  by_cases equals : 61 ∈ ln
  · have found : 61 ∈ ln.dropWhile isSpace := by rwa [column_one]
    rw [LineScanner.consumeTill_found found, column_one, dropWhile_eq_cons equals]
    simp only [LineScanner.peekChar, LineScanner.skipSpaces, LineScanner.deref, LineScanner.skip,
      Bool.false_eq_true, if_false, List.dropWhile_cons_of_neg (Bool.eq_false_iff.mp visible),
      List.headD_cons, if_true, List.drop_one, List.tail_cons, LineScanner.consumeTillEnd_eq,
      splitAt, if_pos equals]
    rfl
  · have missing : 61 ∉ ln.dropWhile isSpace := by rwa [column_one]
    have other : ¬ ln.headD 0 = 61 := by
      cases ln with
      | nil => decide
      | cons first rest => exact fun same => equals (same ▸ List.mem_cons_self)
    rw [LineScanner.consumeTill_missing (by decide) missing, column_one]
    simp only [LineScanner.peekChar, LineScanner.skipSpaces, LineScanner.deref, if_true, if_neg other]
    by_cases colon : 58 ∈ ln
    · have found : 58 ∈ ln.dropWhile isSpace := by rwa [column_one]
      rw [LineScanner.consumeTill_found found, column_one, dropWhile_eq_cons colon,
        matchChar_found visible', LineScanner.consumeTillEnd_eq]
      simp only [splitAt, if_neg equals, if_pos colon, Option.none_or, Parsing.apply, going]
    · have none : 58 ∉ ln.dropWhile isSpace := by rwa [column_one]
      rw [LineScanner.consumeTill_missing (by decide) none, column_one,
        matchChar_missing (by decide) colon]
      simp only [splitAt, if_neg equals, if_neg colon, Option.none_or, Parsing.apply]
      rfl

theorem headD_mem {s : Bytes} (some_char : s ≠ []) (d : UInt8) : s.headD d ∈ s := by
  cases s with
  | nil => exact absurd rfl some_char
  | cons first rest => exact List.mem_cons_self

/-- A line that does not begin with a space is where its first word is. -/
theorem dropWhile_of_headD {ln : Bytes} (column_one : ¬ isSpace (ln.headD 0) = true) :
    ln.dropWhile isSpace = ln := by
  cases ln with
  | nil => rfl
  | cons first rest => exact List.dropWhile_cons_of_neg column_one

/-- **The scanner finds what a line means.** -/
theorem parseLine_eq {ln : Bytes} (clean : 0 ∉ ln) {s : Parsing} (going : s.err = false) :
    parseLine ln s = s.apply (kind ln) := by
  have clean_text : 0 ∉ ln.dropWhile isSpace := fun member =>
    clean ((List.dropWhile_suffix _).subset member)
  by_cases blank : ln.dropWhile isSpace = []
  · simp [parseLine, LineScanner.peekChar, LineScanner.skipSpaces, LineScanner.deref, kind, blank,
      Parsing.apply]
  -- The first character is not a zero.
  have first_eq : (ln.dropWhile isSpace).headD 0 = (ln.dropWhile isSpace).headD 59 := by
    cases text : ln.dropWhile isSpace with
    | nil => exact absurd text blank
    | cons first rest => rfl
  have nonzero : (ln.dropWhile isSpace).headD 59 ≠ 0 := fun zero =>
    clean_text (zero ▸ headD_mem blank 59)
  by_cases comment : (ln.dropWhile isSpace).headD 59 = 59 ∨ (ln.dropWhile isSpace).headD 59 = 35
  · simp only [parseLine, LineScanner.peekChar, LineScanner.skipSpaces, LineScanner.deref, kind,
      Bool.false_eq_true, if_false, first_eq, if_pos comment, Parsing.apply]
    rw [if_pos (comment.imp_right .inl)]
  have special : ¬ ((ln.dropWhile isSpace).headD 59 = 59 ∨ (ln.dropWhile isSpace).headD 59 = 35 ∨
      (ln.dropWhile isSpace).headD 59 = 0) := by
    rintro (semicolon | hash | zero)
    · exact comment (.inl semicolon)
    · exact comment (.inr hash)
    · exact nonzero zero
  simp only [parseLine, LineScanner.peekChar, LineScanner.skipSpaces, LineScanner.deref, kind,
    Bool.false_eq_true, if_false, first_eq, if_neg comment, if_neg special]
  have skipped : (ln.dropWhile isSpace).dropWhile isSpace = ln.dropWhile isSpace :=
    List.dropWhile_idempotent ..
  by_cases bracket : (ln.dropWhile isSpace).headD 59 = 91
  · simp only [if_pos bracket, LineScanner.skip, List.drop_one]
    exact bracket_eq _ s
  · simp only [if_neg bracket]
    by_cases indented : isSpace (ln.headD 0) = true
    · simp only [if_pos indented, LineScanner.consumeTill_zero clean_text, skipped, Parsing.apply]
    · simp only [if_neg indented, dropWhile_of_headD indented]
      exact named_eq (dropWhile_of_headD indented) going

end Conf

end Handy