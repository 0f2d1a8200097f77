import Handy.Http.Once
import Handy.Http.Whole

/-!
# Where the status is read

`HttpResponse::decodeLine` gives `atoi` the place of the status without its length. When something
stands there within the response, the bytes behind the response do not matter
(`HttpResponse.StatusWithin.read_eq`). Behind the version of a response that has neither a status
nor a header there are only blanks and the empty line, and `atoi` goes on into what follows.
-/

set_option autoImplicit false

namespace Handy

theorem skipSign_cons (c : UInt8) (s : Bytes) :
    skipSign (c :: s) = if c = 45 ∨ c = 43 then s else c :: s := by
  simp only [skipSign, List.head?_cons, Option.some.injEq, List.tail_cons]

/-- `atoi` does not look behind a blank that follows something else. -/
theorem atoi_append_space {s rest : Bytes} {c d : UInt8} (member : c ∈ s) (solid : isSpace c = false)
    (blank : isSpace d = true) (more : Bytes) : atoi (s ++ d :: rest ++ more) = atoi (s ++ d :: rest) := by
  have other : isDigit d = false := by
    simp only [isSpace, isDigit, Bool.or_eq_true, Bool.and_eq_true, beq_iff_eq, decide_eq_true_eq,
      Bool.and_eq_false_iff, decide_eq_false_iff_not, UInt8.le_iff_toNat_le, ← UInt8.toNat_inj,
      UInt8.reduceToNat] at blank ⊢
    omega
  obtain ⟨skip, kept⟩ := dropWhile_append_of_mem member solid (d :: rest)
  obtain ⟨skip', -⟩ := dropWhile_append_of_mem member solid (d :: rest ++ more)
  obtain ⟨e, tail, shape⟩ := List.exists_cons_of_ne_nil (List.ne_nil_of_mem kept)
  have number : leadingNumber (skipSign (s.dropWhile isSpace ++ (d :: rest ++ more))) =
      leadingNumber (skipSign (s.dropWhile isSpace ++ d :: rest)) := by
    rw [shape, ← List.append_assoc]
    have later : d ∈ tail ++ d :: rest := List.mem_append_right tail List.mem_cons_self
    rw [List.cons_append, List.cons_append, skipSign_cons, skipSign_cons]
    split_ifs with signed
    · exact leadingNumber_append later other more
    · exact leadingNumber_append (List.mem_cons_of_mem e later) other more
  rw [atoi, atoi, strtol, strtol, List.append_assoc, skip, skip', number, shape]
  rfl

namespace HttpMsg

/-- Lower-casing leaves blanks where they are. -/
theorem map_isSpace_decodeLines (fuel : ℕ) (headers : StringMap) (req : Bytes) :
    (decodeLines fuel headers req).buf.map isSpace = req.map isSpace := by
  fun_induction decodeLines fuel headers req with
  | case1 fuel headers => rfl
  | case2 headers req => rfl
  | case3 fuel headers c => rfl
  | case4 fuel headers c d req ln rest shape line value named name tail ih =>
      have lines : ln ++ rest = req := by
        have whole := List.takeWhile_append_dropWhile (p := fun c => !isEol c) (l := req)
        rw [← whole]
        exact congrArg (fun parts : Bytes × Bytes => parts.1 ++ parts.2) shape.symm
      have parts : ln = line.margin ++ line.name ++ line.rest := (splitLine_spec ln).1
      have lowered : name.map isSpace = line.name.map isSpace := by
        rw [List.map_map]
        exact List.map_congr_left fun c _ => isSpace_toLower c
      have same : tail.buf.map isSpace = rest.map isSpace := ih
      rw [← lines, parts]
      simp only [List.map_cons, List.map_append, lowered, same]
  | case5 fuel headers c d req ln rest shape line value unnamed empty => rfl
  | case6 fuel headers c d req ln rest shape line value unnamed other => rfl

/-- The parts of a head. -/
theorem headOf_parts (s : Bytes) (k : ℕ) : (headOf s k).line1 = (eatLine (s.take k)).1 ∧
    (headOf s k).buf = (headOf s k).line1 ++
      (decodeLines (eatLine (s.take k)).2.length cleared.headers (eatLine (s.take k)).2).buf := by
  obtain ⟨line1, buf⟩ := buf_readHead { cleared with scanned := k } (s.take k) []
  rw [← line1, List.append_nil] at buf
  exact ⟨line1, buf⟩

theorem map_isSpace_headOf (s : Bytes) (k : ℕ) :
    (headOf s k).buf.map isSpace = (s.take k).map isSpace := by
  have whole := List.takeWhile_append_dropWhile (p := fun c => !isEol c) (l := s.take k)
  have line : (eatLine (s.take k)).1 ++ (eatLine (s.take k)).2 = s.take k := whole
  rw [(headOf_parts s k).2, (headOf_parts s k).1, List.map_append, map_isSpace_decodeLines,
    ← List.map_append, line]

variable {s : Bytes} {n k : ℕ}

/-- The head is followed by the empty line. -/
theorem Whole.emptyLine (whole : Whole s k) (behind : k + 4 ≤ n) :
    emptyLine <+: (s.take n).drop k := by
  have found := (scan_iff (s.take (k + 4)) 0 k).mp (by rw [Nat.zero_add]; exact whole.headAt.found)
  have inside := whole.headAt.le.2
  refine found.here.trans ?_
  rw [List.drop_take, List.drop_take]
  exact List.take_prefix_take_left (by omega)

/-- The start line ends in the head or at its end. -/
theorem Whole.eatLine_take (whole : Whole s k) (behind : k + 4 ≤ n) :
    (eatLine (s.take n)).1 = (headOf s k).line1 := by
  obtain ⟨rest, shape⟩ := whole.emptyLine behind
  have split : s.take n = s.take k ++ (13 :: 10 :: 13 :: 10 :: rest) := by
    have both := List.take_append_drop k (s.take n)
    rw [List.take_take, Nat.min_eq_left (by omega), ← shape] at both
    exact both.symm
  rw [(headOf_parts s k).1, split]
  show (s.take k ++ _).takeWhile _ = (s.take k).takeWhile _
  rw [List.takeWhile_append]
  split_ifs with all
  · rw [List.takeWhile_cons, if_neg (by decide), List.append_nil]
    exact ((List.takeWhile_prefix _).eq_of_length all).symm
  · rfl

end HttpMsg

namespace HttpResponse

/-- How many bytes of the start line stand before the status. -/
def statusPlace (line1 : Bytes) : ℕ := line1.length - ((eatWord line1).2.dropWhile isSpace).length

/-- Where the status is read, something stands in the response that is not a blank. -/
def StatusWithin (bytes : Bytes) : Prop :=
  ∃ c ∈ bytes.drop (statusPlace (eatLine bytes).1), isSpace c = false

instance (bytes : Bytes) : Decidable (StatusWithin bytes) := inferInstanceAs (Decidable (∃ c ∈ _, _))

variable {s : Bytes} {k : ℕ}

theorem start_append {line1 memory behind : Bytes}
    (same : atoi ((memory ++ behind).drop (statusPlace line1)) = atoi (memory.drop (statusPlace line1))) :
    start line1 (memory ++ behind) = start line1 memory := by
  unfold start
  split_ifs with there
  · simp only [decodeLine]
    rw [← statusPlace, same]
  · rfl

/-- A head with nothing but blanks behind some place of its start line has no headers. -/
theorem contentLen_of_blank {place : ℕ} (accepts : (HttpMsg.headOf s k).Accepts)
    (before : place ≤ (HttpMsg.headOf s k).line1.length)
    (blank : ∀ c ∈ (HttpMsg.headOf s k).buf.drop place, isSpace c = true) :
    (HttpMsg.headOf s k).msg.contentLen = 0 := by
  have none : 58 ∉ (HttpMsg.decodeLines (eatLine (s.take k)).2.length HttpMsg.cleared.headers
      (eatLine (s.take k)).2).buf := by
    intro colon
    refine absurd (blank 58 ?_) (by decide)
    rw [(HttpMsg.headOf_parts s k).2, List.drop_append_of_le_length before]
    exact List.mem_append_right _ colon
  have headers := (HttpMsg.colon_of_decodeLines _ _ _).resolve_right none
  rw [HttpMsg.headOf, HttpMsg.readHead_accepts accepts, headers]
  exact HttpMsg.contentLen_endHead_empty _

/-- `atoi` stops in the response. -/
theorem StatusWithin.atoi_eq (whole : HttpMsg.Whole s k)
    (within : StatusWithin (s.take (HttpMsg.sizeAt s k))) (behind : Bytes) :
    let memory := (HttpMsg.headOf s k).buf ++ (s.take (HttpMsg.sizeAt s k)).drop k
    atoi ((memory ++ behind).drop (statusPlace (HttpMsg.headOf s k).line1)) =
      atoi (memory.drop (statusPlace (HttpMsg.headOf s k).line1)) := by
  intro memory
  have size : k + 4 ≤ HttpMsg.sizeAt s k := Nat.le_add_right _ _
  have inside := whole.inside
  obtain ⟨c, member, solid⟩ := within
  rw [whole.eatLine_take size] at member
  obtain ⟨rest, line⟩ := whole.emptyLine size
  have before : statusPlace (HttpMsg.headOf s k).line1 ≤ (HttpMsg.headOf s k).line1.length :=
    Nat.sub_le _ _
  have length : (HttpMsg.headOf s k).buf.length = k := HttpMsg.length_headOf (by omega)
  have short : (HttpMsg.headOf s k).line1.length ≤ (HttpMsg.headOf s k).buf.length := by
    rw [(HttpMsg.headOf_parts s k).2, List.length_append]
    exact Nat.le_add_right _ _
  generalize statusPlace (HttpMsg.headOf s k).line1 = place at member before ⊢
  rw [List.append_assoc, List.drop_append_of_le_length (before.trans short),
    List.drop_append_of_le_length (before.trans short), ← line, emptyLine, ← List.append_assoc]
  by_cases found : ∃ d ∈ (HttpMsg.headOf s k).buf.drop place, isSpace d = false
  · obtain ⟨d, there, solid⟩ := found
    exact atoi_append_space there solid (by decide) behind
  · -- There are no headers, and so no body.
    have blank : ∀ d ∈ (HttpMsg.headOf s k).buf.drop place, isSpace d = true := fun d there =>
      Bool.not_eq_false _ ▸ fun other => found ⟨d, there, other⟩
    have none := contentLen_of_blank whole.accepts before blank
    have ends : rest = [] := by
      have all := congrArg List.length line
      rw [List.length_append, List.length_drop, List.length_take, HttpMsg.sizeAt, none] at all
      simp only [emptyLine, List.length_cons, List.length_nil] at all
      exact List.length_eq_zero_iff.mp (by omega)
    -- So something else than a blank would stand in the head.
    refine absurd ?_ found
    have split : s.take (HttpMsg.sizeAt s k) = s.take k ++ emptyLine := by
      have both := List.take_append_drop k (s.take (HttpMsg.sizeAt s k))
      rw [List.take_take, Nat.min_eq_left (by omega), ← line, ends, List.append_nil] at both
      exact both.symm
    have front : (s.take k).length = k := by
      rw [List.length_take]
      omega
    rw [split, List.drop_append_of_le_length (by omega)] at member
    have solidly : false ∈ ((s.take k).drop place).map isSpace := by
      rcases List.mem_append.mp member with head | line
      · exact List.mem_map.mpr ⟨c, head, solid⟩
      · simp only [emptyLine, List.mem_cons, List.not_mem_nil, or_false] at line
        rcases line with rfl | rfl | rfl | rfl <;> exact absurd solid (by decide)
    rw [List.map_drop, ← HttpMsg.map_isSpace_headOf, ← List.map_drop] at solidly
    exact List.mem_map.mp solidly

/-- **A response with a status is the same whatever follows it.** -/
theorem StatusWithin.read_eq (whole : HttpMsg.Whole s k)
    (within : StatusWithin (s.take (HttpMsg.sizeAt s k))) (behind : Bytes) :
    (cleared.tryDecode (s.take (HttpMsg.sizeAt s k)) behind true).msg =
      (cleared.tryDecode (s.take (HttpMsg.sizeAt s k)) [] true).msg := by
  have call := whole.tryDecode_eq (le_refl (HttpMsg.sizeAt s k))
  have first : cleared.tryDecode (s.take (HttpMsg.sizeAt s k)) behind true = _ :=
    tryDecode_unstarted (m := .cleared) rfl (congrArg Decode.outcome call)
  have second : cleared.tryDecode (s.take (HttpMsg.sizeAt s k)) [] true = _ :=
    tryDecode_unstarted (m := .cleared) rfl (congrArg Decode.outcome call)
  rw [first, second, call]
  simp only [start_append (within.atoi_eq whole behind), List.append_nil]

end HttpResponse

end Handy
