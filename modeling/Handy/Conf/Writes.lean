import Handy.Conf.Lines

/-!
# What a file writes

A file is a list of writes: values, each with the section and the name that were current at its
line. `parse_writes` says that `Conf::parse` stores them in order, and `getStrings_parse` and
`get_eq` say what the lookups return then. Lookups go by `makeKey`, which joins the section and
the name with a dot, and two pairs have one key if they are the same up to the case of letters,
or if a part of the one's name between dots is at the end of the other's section
(`makeKey_eq_iff`). `isolated_iff` says what follows for the values of two pairs.
-/

set_option autoImplicit false

namespace Handy

namespace Conf

/-! ## Keys -/

/-- A text in small letters. -/
def lower (s : Bytes) : Bytes := s.map toLower

/-- The same pair, whatever the case of its letters. -/
def SamePair (section₁ name₁ section₂ name₂ : Bytes) : Prop :=
  lower section₁ = lower section₂ ∧ lower name₁ = lower name₂

instance (section₁ name₁ section₂ name₂ : Bytes) :
    Decidable (SamePair section₁ name₁ section₂ name₂) :=
  inferInstanceAs (Decidable (_ ∧ _))

/-- A part of the first name moves to the end of the first section. -/
def MovesTo (section₁ name₁ section₂ name₂ : Bytes) : Prop :=
  ∃ part, lower section₂ = lower section₁ ++ 46 :: part ∧ lower name₁ = part ++ 46 :: lower name₂

/-- Two pairs that are one text when they are joined by a dot. -/
def Confusable (section₁ name₁ section₂ name₂ : Bytes) : Prop :=
  MovesTo section₁ name₁ section₂ name₂ ∨ MovesTo section₂ name₂ section₁ name₁

theorem makeKey_eq (sectionName name : Bytes) :
    makeKey sectionName name = lower sectionName ++ 46 :: lower name := by
  have dot : (ascii ".").map toLower = [46] := by decide
  rw [makeKey, List.map_append, List.map_append, dot, List.append_assoc]
  rfl

/-- Two texts cut at a character each. -/
theorem append_cons_cases {α : Type} {c : α} {front back front' back' : List α}
    (same : front ++ c :: back = front' ++ c :: back') :
    (front = front' ∧ back = back') ∨
      (∃ part, front' = front ++ c :: part ∧ back = part ++ c :: back') ∨
      ∃ part, front = front' ++ c :: part ∧ back' = part ++ c :: back := by
  rcases List.append_eq_append_iff.mp same with ⟨part, first, second⟩ | ⟨part, first, second⟩
  · cases part with
    | nil => exact .inl ⟨by rw [first, List.append_nil], (List.cons.inj second).2⟩
    | cons d part =>
        obtain ⟨rfl, rest⟩ := List.cons.inj second
        exact .inr (.inl ⟨part, first, rest⟩)
  · cases part with
    | nil => exact .inl ⟨by rw [first, List.append_nil], (List.cons.inj second).2.symm⟩
    | cons d part =>
        obtain ⟨rfl, rest⟩ := List.cons.inj second
        exact .inr (.inr ⟨part, first, rest⟩)

/-- **Which pairs have one key.** -/
theorem makeKey_eq_iff {section₁ name₁ section₂ name₂ : Bytes} :
    makeKey section₁ name₁ = makeKey section₂ name₂ ↔
      SamePair section₁ name₁ section₂ name₂ ∨ Confusable section₁ name₁ section₂ name₂ := by
  rw [makeKey_eq, makeKey_eq]
  constructor
  · exact append_cons_cases
  · rintro (⟨sections, names⟩ | ⟨part, sections, names⟩ | ⟨part, sections, names⟩)
    · rw [sections, names]
    · rw [sections, names, List.append_assoc, List.cons_append]
    · rw [sections, names, List.append_assoc, List.cons_append]

/-! ## Writes -/

/-- A value, with the section and the name that it is written under. -/
structure Write where
  sectionName : Bytes
  name : Bytes
  value : Bytes
  deriving DecidableEq, Repr

namespace Write

def key (w : Write) : Bytes := makeKey w.sectionName w.name

/-- It is written under a pair. -/
def Under (w : Write) (sectionName name : Bytes) : Prop := SamePair w.sectionName w.name sectionName name

instance (w : Write) (sectionName name : Bytes) : Decidable (w.Under sectionName name) :=
  inferInstanceAs (Decidable (SamePair _ _ _ _))

end Write

def store (values : OrderedMap Bytes (List Bytes)) (w : Write) : OrderedMap Bytes (List Bytes) :=
  pushBack values w.key w.value

/-- What a line of a kind writes. -/
def Parsing.writes (s : Parsing) : LineKind → List Write
  | .ignored => []
  | .bracket _ => []
  | .indented value => if s.key ≠ [] then [⟨s.sectionName, s.key, value⟩] else []
  | .named none => [⟨s.sectionName, [], []⟩]
  | .named (some (key, value)) => [⟨s.sectionName, key, value⟩]

/-- What lines write, up to an error. -/
def written : List Bytes → Parsing → List Write
  | [], _ => []
  | ln :: more, s =>
      if s.err then [] else s.writes (kind (cstr ln)) ++ written more (parseLine (cstr ln) s)

/-- What a file writes. -/
def writes (file : Bytes) : List Write :=
  written (pieces MAX_LINE file.length file) (.start .empty)

/-! ## The same lines write the same -/

/-- Two states that go on alike: only the values and the count of lines may differ. -/
structure Alike (s t : Parsing) : Prop where
  sectionName : s.sectionName = t.sectionName
  key : s.key = t.key
  err : s.err = t.err

namespace Alike

variable {s t : Parsing}

theorem writes (alike : Alike s t) (line : LineKind) : s.writes line = t.writes line := by
  obtain ⟨sections, keys, -⟩ := alike
  unfold Parsing.writes
  rw [sections, keys]

theorem apply (alike : Alike s t) (line : LineKind) : Alike (s.apply line) (t.apply line) := by
  obtain ⟨sections, keys, errs⟩ := alike
  cases line with
  | ignored => exact ⟨sections, keys, errs⟩
  | bracket sectionName => exact ⟨rfl, rfl, rfl⟩
  | indented value =>
      by_cases named : s.key ≠ []
      · rw [Parsing.apply, Parsing.apply, if_pos named, if_pos (keys ▸ named)]
        exact ⟨sections, keys, errs⟩
      · rw [Parsing.apply, Parsing.apply, if_neg named, if_neg (keys ▸ named)]
        exact ⟨sections, keys, rfl⟩
  | named pair =>
      cases pair with
      | none => exact ⟨sections, rfl, rfl⟩
      | some pair => exact ⟨sections, rfl, errs⟩

theorem parseLine (alike : Alike s t) (going : s.err = false) (ln : Bytes) :
    Alike (parseLine (cstr ln) s) (parseLine (cstr ln) t) := by
  rw [parseLine_eq (zero_not_mem_cstr ln) going,
    parseLine_eq (zero_not_mem_cstr ln) (alike.err ▸ going)]
  exact alike.apply _

/-- The states go on alike, and the same is written. -/
theorem run (alike : Alike s t) (lns : List Bytes) :
    Alike (runLines lns s) (runLines lns t) ∧ written lns s = written lns t := by
  induction lns generalizing s t with
  | nil => exact ⟨alike, rfl⟩
  | cons ln lns ih =>
      cases going : s.err with
      | true =>
          have stopped : t.err = true := alike.err ▸ going
          rw [runLines_of_err going, runLines_of_err stopped, written, written, if_pos going,
            if_pos stopped]
          exact ⟨alike, rfl⟩
      | false =>
          have left : ¬ s.err = true := by simp [going]
          have right : ¬ t.err = true := by simp [← alike.err, going]
          rw [runLines, runLines, written, written, if_neg left, if_neg right, if_neg left,
            if_neg right, alike.writes]
          obtain ⟨after, same⟩ := ih (alike.parseLine going ln)
          exact ⟨after, by rw [same]⟩

end Alike

/-! ## The writes are stored -/

theorem apply_values (s : Parsing) (line : LineKind) :
    (s.apply line).values = (s.writes line).foldl store s.values := by
  cases line with
  | ignored => rfl
  | bracket sectionName => rfl
  | indented value =>
      by_cases named : s.key ≠ []
      · rw [Parsing.apply, Parsing.writes, if_pos named, if_pos named]
        rfl
      · rw [Parsing.apply, Parsing.writes, if_neg named, if_neg named]
        rfl
  | named pair =>
      cases pair with
      | none => rfl
      | some pair => rfl

theorem runLines_values (lns : List Bytes) (s : Parsing) :
    (runLines lns s).values = (written lns s).foldl store s.values := by
  induction lns generalizing s with
  | nil => rfl
  | cons ln lns ih =>
      cases going : s.err with
      | true =>
          rw [runLines_of_err going, written, if_pos going]
          rfl
      | false =>
          have left : ¬ s.err = true := by simp [going]
          rw [runLines, written, if_neg left, if_neg left, ih, List.foldl_append,
            parseLine_eq (zero_not_mem_cstr ln) going, apply_values]

/-- **`Conf::parse` stores what the file writes.** -/
theorem parse_writes {fopen : Bytes → Option Bytes} {filename file : Bytes}
    (opened : fopen (cstr filename) = some file) (conf : Conf) :
    (parse fopen conf filename).2 = ⟨(writes file).foldl store conf.values, filename⟩ := by
  have alike : Alike (.start conf.values) (.start .empty) := ⟨rfl, rfl, rfl⟩
  rw [parse_eq opened, Parsing.outcome, runLines_values, (alike.run _).2]
  rfl

/-! ## The lookups -/

theorem find?_store (values : OrderedMap Bytes (List Bytes)) (w : Write) (key : Bytes) :
    ((store values w).find? key).getD [] =
      (values.find? key).getD [] ++ if w.key = key then [w.value] else [] := by
  rw [store, pushBack, OrderedMap.find?_set]
  by_cases same : w.key = key
  · rw [if_pos same, if_pos same, same]
    rfl
  · rw [if_neg same, if_neg same, List.append_nil]

/-- The values under a key: those that were there, and those that are written, in order. -/
theorem find?_stored (ws : List Write) (values : OrderedMap Bytes (List Bytes)) (key : Bytes) :
    ((ws.foldl store values).find? key).getD [] =
      (values.find? key).getD [] ++ (ws.filter (·.key = key)).map Write.value := by
  induction ws generalizing values with
  | nil => exact (List.append_nil _).symm
  | cons w ws ih =>
      rw [List.foldl_cons, ih, find?_store, List.append_assoc]
      by_cases same : w.key = key
      · rw [if_pos same, List.filter_cons_of_pos (by simpa using same)]
        rfl
      · rw [if_neg same, List.filter_cons_of_neg (by simpa using same)]
        rfl

/-- `get` returns the last of what `getStrings` returns. -/
theorem get_eq (conf : Conf) (sectionName name default_value : Bytes) :
    conf.get sectionName name default_value =
      (conf.getStrings sectionName name).getLastD default_value := by
  unfold get getStrings
  cases conf.values.find? (makeKey sectionName name) with
  | none => rfl
  | some list => rfl

theorem getStrings_stored (ws : List Write) (conf : Conf) (filename sectionName name : Bytes) :
    (Conf.mk (ws.foldl store conf.values) filename).getStrings sectionName name =
      conf.getStrings sectionName name ++
        (ws.filter (·.key = makeKey sectionName name)).map Write.value :=
  find?_stored ws conf.values _

/-! ## Isolation -/

/-- What would be stored without the values written under a pair. -/
def without (conf : Conf) (file sectionName name : Bytes) : Conf :=
  { conf with
    values := ((writes file).filter (¬ ·.Under sectionName name)).foldl store conf.values }

/-- The values written under the first pair make no difference for the second. -/
def Isolated (conf parsed : Conf) (file section₁ name₁ section₂ name₂ : Bytes) : Prop :=
  parsed.getStrings section₂ name₂ = (conf.without file section₁ name₁).getStrings section₂ name₂ ∧
    ∀ default_value, parsed.get section₂ name₂ default_value =
      (conf.without file section₁ name₁).get section₂ name₂ default_value

/-- Nothing is left out of a list that makes a difference. -/
theorem filter_map_eq_iff {ws : List Write} {p q : Write → Bool} :
    (ws.filter p).map Write.value = ((ws.filter q).filter p).map Write.value ↔
      ∀ w ∈ ws, p w = true → q w = true := by
  constructor
  · intro same w member chosen
    have lengths := congrArg List.length same
    rw [List.length_map, List.length_map, List.filter_comm] at lengths
    exact List.length_filter_eq_length_iff.mp lengths.symm w (List.mem_filter.mpr ⟨member, chosen⟩)
  · intro all
    rw [List.filter_comm, List.filter_eq_self.mpr fun w member =>
      all w (List.mem_filter.mp member).1 (List.mem_filter.mp member).2]

/-- **Values written under a pair are seen under another exactly if there are some and the dots
of the two pairs can be confused.** -/
theorem isolated_iff {fopen : Bytes → Option Bytes} {filename file : Bytes}
    (opened : fopen (cstr filename) = some file) (conf : Conf) {section₁ name₁ section₂ name₂ : Bytes}
    (differ : ¬ SamePair section₁ name₁ section₂ name₂) :
    Isolated conf (parse fopen conf filename).2 file section₁ name₁ section₂ name₂ ↔
      (∀ w ∈ writes file, ¬ w.Under section₁ name₁) ∨
        ¬ Confusable section₁ name₁ section₂ name₂ := by
  have lists : (parse fopen conf filename).2.getStrings section₂ name₂ =
      (conf.without file section₁ name₁).getStrings section₂ name₂ ↔
        ∀ w ∈ writes file, w.key = makeKey section₂ name₂ → ¬ w.Under section₁ name₁ := by
    rw [parse_writes opened, without, getStrings_stored, getStrings_stored, List.append_cancel_left_eq,
      filter_map_eq_iff]
    simp only [decide_eq_true_eq]
  have isolated : Isolated conf (parse fopen conf filename).2 file section₁ name₁ section₂ name₂ ↔
      ∀ w ∈ writes file, w.key = makeKey section₂ name₂ → ¬ w.Under section₁ name₁ := by
    refine ⟨fun both => lists.mp both.1, fun apart => ⟨lists.mpr apart, fun default_value => ?_⟩⟩
    rw [get_eq, get_eq, lists.mpr apart]
  -- The key of a value under the first pair is that of the pair.
  have under_key : ∀ w : Write, w.Under section₁ name₁ → w.key = makeKey section₁ name₁ :=
    fun w under => makeKey_eq_iff.mpr (.inl under)
  rw [isolated]
  constructor
  · intro apart
    by_cases confusable : Confusable section₁ name₁ section₂ name₂
    · exact .inl fun w member under =>
        apart w member ((under_key w under).trans (makeKey_eq_iff.mpr (.inr confusable))) under
    · exact .inr confusable
  · rintro (none | plain) w member key under
    · exact none w member under
    · rcases makeKey_eq_iff.mp ((under_key w under).symm.trans key) with same | confusable
      · exact differ same
      · exact plain confusable

/-- A file that is there under every name. -/
def onDisk (file : Bytes) : Bytes → Option Bytes := fun _ => some file

/-- `[a]` with `b=1`, and the name `c` of the section `a`. -/
theorem isolated_iff_plain :
    Isolated .new (parse (onDisk (ascii "[a]\nb=1\n")) .new []).2 (ascii "[a]\nb=1\n")
      (ascii "a") (ascii "b") (ascii "a") (ascii "c") := by
  have opened : onDisk (ascii "[a]\nb=1\n") (cstr []) = some (ascii "[a]\nb=1\n") := rfl
  have plain : ¬ Confusable (ascii "a") (ascii "b") (ascii "a") (ascii "c") := by
    rintro (⟨part, sections, -⟩ | ⟨part, sections, -⟩)
    · exact absurd (congrArg List.length sections) (by simp [lower])
    · exact absurd (congrArg List.length sections) (by simp [lower])
  exact (isolated_iff opened .new (by decide)).mpr (.inr plain)

/-- The name `c` of the section `a.b` is the name `b.c` of the section `a`. -/
theorem dotted_section_seen : ¬ ∀ (conf : Conf) (file : Bytes) (fopen : Bytes → Option Bytes)
    (filename : Bytes), fopen (cstr filename) = some file → (parse fopen conf filename).1 = 0 →
    ∀ section₁ name₁ section₂ name₂ : Bytes, ¬ SamePair section₁ name₁ section₂ name₂ →
      Isolated conf (parse fopen conf filename).2 file section₁ name₁ section₂ name₂ := by
  intro always
  have isolated := always .new (ascii "[a.b]\nc=1\n") (onDisk (ascii "[a.b]\nc=1\n")) [] rfl
    (by decide +kernel) (ascii "a.b") (ascii "c") (ascii "a") (ascii "b.c") (by decide)
  exact absurd isolated.1 (by decide +kernel)

end Conf

end Handy
