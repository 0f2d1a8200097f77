import Handy.Http.Incremental
import Handy.Http.Lines

/-!
# After an error

A decoder that has returned `Error` may be called again: more bytes arrive before the
connection is closed, and `cleanup` calls the read callback once more. When a header line
was to blame, every later call finds it again. The names before it have been lower-cased,
which makes no difference (`HttpMsg.decodeLines_again`). When the URI was to blame, the
message below has gone on, and later calls do not look at the start line: the error is
forgotten (`HttpRequest.errors_final_iff`).
-/

set_option autoImplicit false

namespace Handy

/-! ## Lower-casing twice -/

theorem isSpace_toLower (c : UInt8) : isSpace (toLower c) = isSpace c := by
  unfold toLower
  split_ifs with upper
  · simp only [isSpace, UInt8.le_iff_toNat_le, UInt8.toNat_add, UInt8.reduceToNat] at upper ⊢
    rw [Bool.eq_iff_iff]
    simp only [Bool.or_eq_true, Bool.and_eq_true, decide_eq_true_eq, beq_iff_eq, ← UInt8.toNat_inj,
      UInt8.toNat_add, UInt8.reduceToNat]
    omega
  · rfl

theorem isEol_toLower (c : UInt8) : isEol (toLower c) = isEol c := by
  unfold toLower
  split_ifs with upper
  · simp only [UInt8.le_iff_toNat_le, UInt8.reduceToNat] at upper
    rw [Bool.eq_iff_iff]
    simp only [isEol, Bool.or_eq_true, beq_iff_eq, ← UInt8.toNat_inj, UInt8.toNat_add,
      UInt8.reduceToNat]
    omega
  · rfl

namespace HttpMsg

theorem splitLine_lowerLine {ln : Bytes} (named : (splitLine ln).name ≠ []) :
    splitLine (lowerLine ln) =
      ⟨(splitLine ln).margin, (splitLine ln).name.map toLower, (splitLine ln).rest⟩ := by
  obtain ⟨-, blank, solid, stops⟩ := splitLine_spec ln
  refine splitLine_parts blank ⟨by simpa using named, fun c member => ?_⟩ stops
  obtain ⟨d, among, rfl⟩ := List.mem_map.mp member
  rw [isSpace_toLower, solid d among]

theorem lowerLine_plain {ln : Bytes} (plain : ∀ c ∈ ln, isEol c = false) :
    ∀ c ∈ lowerLine ln, isEol c = false := by
  have whole := (splitLine_spec ln).1
  intro c member
  simp only [lowerLine, List.mem_append, List.mem_map] at member
  rcases member with (front | ⟨d, among, rfl⟩) | back
  · exact plain c (by rw [whole]; simp [front])
  · rw [isEol_toLower]
    exact plain d (by rw [whole]; simp [among])
  · exact plain c (by rw [whole]; simp [back])

theorem Named.lowerLine {ln : Bytes} (named : Named ln) : Named (lowerLine ln) := by
  obtain ⟨name, value, colon⟩ := named
  rw [Named, splitLine_lowerLine name]
  refine ⟨by simpa using name, value, ?_⟩
  rw [List.getLast?_map, colon]
  rfl

/-- **The lines that are accepted do not depend on the headers before them, and lower-casing
the names does not change which they are.** -/
theorem decodeLines_again (fuel : ℕ) (headers other : StringMap) (req : Bytes) :
    (decodeLines fuel other req).accepted = (decodeLines fuel headers req).accepted ∧
      (decodeLines fuel other (decodeLines fuel headers req).buf).accepted =
        (decodeLines fuel headers req).accepted := by
  induction fuel generalizing headers other req with
  | zero => cases req <;> simp [decodeLines]
  | succ fuel ih =>
      rcases req with _ | ⟨c, _ | ⟨d, req⟩⟩
      · simp [decodeLines]
      · simp [decodeLines]
      · obtain ⟨plain, stops⟩ := eatLine_spec req
        rcases shape : eatLine req with ⟨ln, rest⟩
        rw [shape] at plain stops
        by_cases named : Named ln
        · rw [decodeLines_named named fuel headers c d shape,
            decodeLines_named named fuel other c d shape]
          refine ⟨(ih _ _ rest).1, ?_⟩
          -- The line read again is the line with its name lower-cased.
          have again : eatLine (lowerLine ln ++ (decodeLines fuel (headers.set
              ((splitLine ln).name.map toLower).dropLast (trimSpace (splitLine ln).rest)) rest).buf) =
              (lowerLine ln, (decodeLines fuel (headers.set
                ((splitLine ln).name.map toLower).dropLast (trimSpace (splitLine ln).rest)) rest).buf) := by
            refine eatLine_stops (lowerLine_plain plain) ?_
            rw [Stops, head?_decodeLines]
            exact stops
          rw [decodeLines_named named.lowerLine fuel other c d again]
          exact (ih _ _ rest).2
        · rw [decodeLines_unnamed named fuel headers c d shape,
            decodeLines_unnamed named fuel other c d shape]
          exact ⟨rfl, rfl⟩

/-! ## A head with a bad line -/

/-- A head whose lines are not all accepted. -/
def Refused (req : Bytes) : Prop :=
  (decodeLines (eatLine req).2.length .empty (eatLine req).2).accepted = false

/-- A head after its lines have been read. -/
def lowerHead (headers : StringMap) (req : Bytes) : Bytes :=
  (eatLine req).1 ++ (decodeLines (eatLine req).2.length headers (eatLine req).2).buf

theorem eatLine_lowerHead (headers : StringMap) (req : Bytes) :
    eatLine (lowerHead headers req) =
      ((eatLine req).1, (decodeLines (eatLine req).2.length headers (eatLine req).2).buf) := by
  obtain ⟨plain, stops⟩ := eatLine_spec req
  refine eatLine_stops plain ?_
  rw [Stops, head?_decodeLines]
  exact stops

theorem Refused.lowerHead {req : Bytes} (refused : Refused req) (headers : StringMap) :
    Refused (lowerHead headers req) := by
  rw [Refused, eatLine_lowerHead]
  simp only [length_decodeLines]
  obtain ⟨same, again⟩ := decodeLines_again (eatLine req).2.length headers .empty (eatLine req).2
  exact again.trans (same.symm.trans refused)

theorem length_lowerHead (headers : StringMap) (req : Bytes) :
    (lowerHead headers req).length = req.length := by
  rw [lowerHead, List.length_append, length_decodeLines, length_eatLine]

/-- **A head with a bad line is rejected**, whatever headers the message has. -/
theorem Refused.readHead_eq {req : Bytes} (refused : Refused req) (m : HttpMsg) (rest : Bytes) :
    ∃ headers, m.readHead req rest =
      ⟨some .error, { m with headers := headers }, (eatLine req).1,
        HttpMsg.lowerHead m.headers req ++ rest⟩ := by
  have rejected : (decodeLines (eatLine req).2.length m.headers (eatLine req).2).accepted = false :=
    (decodeLines_again _ .empty _ _).1.trans refused
  refine ⟨(decodeLines (eatLine req).2.length m.headers (eatLine req).2).headers, ?_⟩
  simp only [readHead, if_pos rejected]
  rfl

/-- The lines of the head that the message has found in the memory are not all accepted; it
was called on `n` bytes. -/
structure Broken (n : ℕ) (m : HttpMsg) (mem : Bytes) : Prop where
  isOpen : m.complete = false
  idle : m.contentLen = 0
  positive : 0 < m.scanned
  found : scan ((mem.take n).drop m.scanned) m.scanned = (m.scanned, true)
  refused : Refused (mem.take m.scanned)

namespace Broken

variable {n n' : ℕ} {m : HttpMsg} {mem : Bytes}

theorem inside (broken : Broken n m mem) : m.scanned ≤ n ∧ m.scanned ≤ mem.length := by
  have bound := (scan_found broken.found).2
  rw [List.length_drop, List.length_take] at bound
  omega

theorem mono (broken : Broken n m mem) (le : n ≤ n') : Broken n' m mem := by
  obtain ⟨before, stored⟩ := broken.inside
  refine { broken with found := ?_ }
  have short : m.scanned ≤ (mem.take n).length := by
    rw [List.length_take]
    exact le_min before stored
  rw [take_grows mem le, List.drop_append_of_le_length short]
  exact scan_append_found broken.found _

/-- **The bad line is found again.** -/
theorem tryDecode_eq (broken : Broken n m mem) (copyBody : Bool) : ∃ headers,
    m.tryDecode (mem.take n) copyBody =
      ⟨.ok .error, { m with headers := headers }, (eatLine (mem.take m.scanned)).1,
        lowerHead m.headers (mem.take m.scanned) ++ (mem.take n).drop m.scanned⟩ := by
  have head := decodeHead_found broken.found broken.positive
  rw [List.take_take, Nat.min_eq_left broken.inside.1] at head
  obtain ⟨headers, rejected⟩ := broken.refused.readHead_eq m ((mem.take n).drop m.scanned)
  have same : m.decodeHead (mem.take n) = _ := head.trans rejected
  refine ⟨headers, ?_⟩
  rw [tryDecode_answer broken.isOpen broken.idle (congrArg Head.answer same), same]

/-- The memory that a call leaves. -/
theorem again (broken : Broken n m mem) (headers before : StringMap) (version : Bytes) :
    Broken n { m with headers := headers, version := version }
      (lowerHead before (mem.take m.scanned) ++ (mem.take n).drop m.scanned ++ mem.drop n) := by
  obtain ⟨within, stored⟩ := broken.inside
  have size : (lowerHead before (mem.take m.scanned)).length = m.scanned := by
    rw [length_lowerHead, List.length_take, Nat.min_eq_left stored]
  refine ⟨broken.isOpen, broken.idle, broken.positive, ?_, ?_⟩
  · have same : ((lowerHead before (mem.take m.scanned) ++ mem.drop m.scanned).take n).drop
        m.scanned = (mem.take n).drop m.scanned := by
      rw [List.drop_take, List.drop_append_of_le_length size.ge, List.drop_of_length_le size.le,
        List.nil_append, List.drop_take]
    rw [List.append_assoc, drop_take_append mem within, same]
    exact broken.found
  · rw [List.append_assoc, List.take_append_of_le_length size.ge,
      List.take_of_length_le size.le]
    exact broken.refused.lowerHead before

end Broken

/-! ## The first call that finds the head -/

/-- A search that succeeds succeeds at once from there. -/
theorem scan_found_at {s : Bytes} {i k : ℕ} (found : scan s i = (k, true)) :
    scan (s.drop (k - i)) k = (k, true) ∧ scan (s.take (k - i + 4)) i = (k, true) := by
  fun_induction scan s i with
  | case1 c rest i short => cases found
  | case2 c rest i long here =>
      obtain ⟨rfl, -⟩ := Prod.mk.inj found
      obtain ⟨rfl, shape⟩ := here
      rw [Nat.sub_self, List.drop_zero, Nat.zero_add, List.take_succ_cons, shape]
      refine ⟨?_, rfl⟩
      rw [scan, if_neg long, if_pos ⟨rfl, shape⟩]
  | case3 c rest i long elsewhere ih =>
      have bounds := scan_found found
      obtain ⟨dropped, taken⟩ := ih found
      obtain ⟨d, rfl⟩ := Nat.exists_eq_add_of_le bounds.1
      rw [show i + 1 + d - (i + 1) = d by omega] at dropped taken
      rw [show i + 1 + d - i = d + 1 by omega, List.drop_succ_cons,
        show d + 1 + 4 = d + 4 + 1 by omega, List.take_succ_cons]
      refine ⟨dropped, ?_⟩
      have enough : ¬ (rest.take (d + 4)).length < 3 := by
        rw [List.length_take]
        omega
      rw [scan, if_neg enough, List.take_take, Nat.min_eq_left (by omega), if_neg elsewhere, taken]
  | case4 i => cases found

theorem accepts_iff (s : Bytes) (k : ℕ) : (headOf s k).Accepts ↔ ¬ Refused (s.take k) := by
  rw [accepts_headOf, Refused, Bool.not_eq_false]

variable {s : Bytes} {n k : ℕ}

/-- A head with a bad line is found. -/
theorem HeadAt.broken (headAt : HeadAt s n k) (refused : Refused (s.take k)) :
    Broken n { cleared with scanned := k } s := by
  refine ⟨rfl, rfl, headAt.positive, ?_, refused⟩
  exact (scan_found_at headAt.found).1

theorem HeadAt.tryDecode_refused (headAt : HeadAt s n k) (refused : Refused (s.take k))
    (copyBody : Bool) : ∃ headers, cleared.tryDecode (s.take n) copyBody =
      ⟨.ok .error, { cleared with scanned := k, headers := headers }, (eatLine (s.take k)).1,
        lowerHead .empty (s.take k) ++ (s.take n).drop k⟩ := by
  obtain ⟨headers, rejected⟩ :=
    refused.readHead_eq { cleared with scanned := k } ((s.take n).drop k)
  have head := headAt.decodeHead_eq.trans rejected
  refine ⟨headers, ?_⟩
  rw [tryDecode_answer rfl rfl (congrArg Head.answer head), head]
  rfl

/-- The message has been completed, or it waits for its body. -/
def Past (m : HttpMsg) : Prop := m.complete = true ∨ m.contentLen ≠ 0

theorem decodeBody_past {m : HttpMsg} (reading : m.contentLen ≠ 0) (buf : Bytes) (copyBody : Bool) :
    (m.decodeBody buf copyBody).1 ≠ .ok .error ∧ Past (m.decodeBody buf copyBody).2 := by
  simp only [decodeBody, Past, takeBody]
  split_ifs <;> simp [reading]

/-- **Behind the head there is no error.** -/
theorem Past.tryDecode_spec {m : HttpMsg} (past : Past m) (buf : Bytes) (copyBody : Bool) :
    (m.tryDecode buf copyBody).outcome ≠ .ok .error ∧ (m.tryDecode buf copyBody).line1 = [] ∧
      Past (m.tryDecode buf copyBody).msg := by
  by_cases isOpen : m.complete = false
  · have reading : m.contentLen ≠ 0 := past.resolve_left (by simp [isOpen])
    rw [tryDecode_body buf copyBody isOpen reading]
    exact ⟨(decodeBody_past reading buf copyBody).1, rfl, (decodeBody_past reading buf copyBody).2⟩
  · simp only [tryDecode, Bool.eq_true_of_not_eq_false isOpen, if_true]
    exact ⟨by simp, trivial, past⟩

/-- A head that is accepted is not looked at again. -/
theorem HeadAt.past (headAt : HeadAt s n k) (accepts : (headOf s k).Accepts) (copyBody : Bool) :
    (cleared.tryDecode (s.take n) copyBody).outcome ≠ .ok .error ∧
      Past (cleared.tryDecode (s.take n) copyBody).msg := by
  obtain ⟨outcome, msg, -, -⟩ := headAt.tryDecode_eq accepts copyBody
  suffices body : ((headOf s k).msg.decodeBody ((headOf s k).buf ++ (s.take n).drop k) copyBody).1 ≠
      .ok .error ∧
      Past ((headOf s k).msg.decodeBody ((headOf s k).buf ++ (s.take n).drop k) copyBody).2 by
    refine ⟨fun fails => ?_, msg ▸ body.2⟩
    rw [fails] at outcome
    cases result : ((headOf s k).msg.decodeBody
        ((headOf s k).buf ++ (s.take n).drop k) copyBody).1 with
    | error fault =>
        rw [result] at outcome
        cases outcome
    | ok r =>
        rw [result] at outcome body
        cases r <;> simp_all [settled, Except.map, Result.settled]
  by_cases reading : (headOf s k).msg.contentLen ≠ 0
  · exact decodeBody_past reading _ copyBody
  · -- Without a content length the message is complete.
    have arrived : addSize (headOf s k).msg.contentLen (headOf s k).msg.scanned ≤
        ((headOf s k).buf ++ (s.take n).drop k).length := by
      refine le_trans ?_ headAt.length_buf
      rw [not_ne_iff.mp reading, scanned_headOf accepts, addSize, Nat.zero_add]
      exact Nat.mod_le _ _
    have small : ¬ (copyBody = true ∧ 2 ^ 63 ≤ (headOf s k).msg.contentLen) := by
      rw [not_ne_iff.mp reading]
      norm_num
    rw [decodeBody, if_pos arrived, if_neg small]
    exact ⟨by simp, .inl rfl⟩

end HttpMsg

/-! ## Requests -/

namespace HttpRequest

variable {s mem : Bytes} {n n' k : ℕ} {req : HttpRequest}

theorem tryDecode_error {buf : Bytes} {copyBody : Bool}
    (fails : (req.toHttpMsg.tryDecode buf copyBody).outcome = .ok .error) :
    (req.tryDecode buf copyBody).outcome = .ok .error := by
  simp only [tryDecode, fails, ite_self]
  split_ifs <;> rfl

theorem tryDecode_unseen {buf : Bytes} {copyBody : Bool}
    (unseen : (req.toHttpMsg.tryDecode buf copyBody).line1 = []) :
    (req.tryDecode buf copyBody).outcome = (req.toHttpMsg.tryDecode buf copyBody).outcome := by
  simp only [tryDecode, unseen]
  cases (req.toHttpMsg.tryDecode buf copyBody).outcome <;> rfl

/-- A request whose head has a bad line is rejected again and again. -/
theorem tryDecode_broken (broken : req.Broken n mem) (copyBody : Bool) :
    (req.tryDecode (mem.take n) copyBody).outcome = .ok .error ∧
      (req.tryDecode (mem.take n) copyBody).msg.Broken n
        ((req.tryDecode (mem.take n) copyBody).buf ++ mem.drop n) := by
  obtain ⟨headers, same⟩ := broken.tryDecode_eq copyBody
  obtain ⟨⟨version, msg⟩, buf⟩ := tryDecode_leaves req (mem.take n) copyBody
  refine ⟨tryDecode_error (congrArg Decode.outcome same), ?_⟩
  rw [msg, buf, same]
  exact broken.again headers _ version

/-- A request behind its head is not rejected. -/
theorem tryDecode_past (past : req.Past) (buf : Bytes) (copyBody : Bool) :
    (req.tryDecode buf copyBody).outcome ≠ .ok .error ∧ (req.tryDecode buf copyBody).msg.Past := by
  obtain ⟨fine, unseen, after⟩ := past.tryDecode_spec buf copyBody
  obtain ⟨⟨version, msg⟩, -⟩ := tryDecode_leaves req buf copyBody
  rw [tryDecode_unseen unseen, msg]
  exact ⟨fine, after⟩

/-- The string begins with a head whose lines are accepted and whose URI is not. When the body is
copied, a content length may be negative and so short that the call throws; then there is no
error. -/
structure RejectedUri (s : Bytes) (copyBody : Bool) (k : ℕ) : Prop where
  headAt : HttpMsg.HeadAt s s.length k
  accepts : (HttpMsg.headOf s k).Accepts
  rejects : (start (HttpMsg.headOf s k).line1).1 = false
  returns : copyBody = false ∨ (HttpMsg.headOf s k).msg.contentLen < 2 ^ 63 ∨
    k + 4 < addSize (HttpMsg.headOf s k).msg.contentLen (k + 4)

/-- A call that throws does not return `Error`. -/
theorem RejectedUri.of_error (headAt : HttpMsg.HeadAt s n k) (accepts : (HttpMsg.headOf s k).Accepts)
    {copyBody : Bool} (fails : (cleared.tryDecode (s.take n) copyBody).outcome = .ok .error) :
    RejectedUri s copyBody k := by
  have whole : HttpMsg.HeadAt s s.length k := by
    refine ⟨?_, headAt.positive⟩
    have more := (headAt.mono (le_max_left n s.length)).found
    rwa [List.take_of_length_le (le_max_right _ _), ← List.take_length (l := s)] at more
  obtain ⟨outcome, -, line1, -⟩ := headAt.tryDecode_eq accepts copyBody
  cases returns : (HttpMsg.cleared.tryDecode (s.take n) copyBody).outcome with
  | error fault =>
      have throws : (cleared.tryDecode (s.take n) copyBody).outcome = .error fault :=
        tryDecode_throws returns
      rw [throws] at fails
      cases fails
  | ok r =>
      have first : cleared.tryDecode (s.take n) copyBody = _ :=
        tryDecode_unstarted (m := .cleared) rfl returns
      refine ⟨whole, accepts, ?_, ?_⟩
      · by_contra accepted
        have fine := (headAt.past accepts copyBody).1
        rw [first, line1, if_pos (Bool.eq_true_of_not_eq_false accepted), ← returns] at fails
        exact fine fails
      · by_contra throws
        obtain ⟨copies, bounds⟩ := not_or.mp throws
        obtain ⟨large, short⟩ := not_or.mp bounds
        rw [not_lt] at large short
        have arrived : addSize (HttpMsg.headOf s k).msg.contentLen
            (HttpMsg.headOf s k).msg.scanned ≤
              ((HttpMsg.headOf s k).buf ++ (s.take n).drop k).length := by
          rw [HttpMsg.scanned_headOf accepts]
          exact short.trans headAt.length_buf
        have copied : copyBody = true := Bool.eq_true_of_not_eq_false copies
        rw [HttpMsg.decodeBody, if_pos arrived, if_pos ⟨copied, large⟩, returns] at outcome
        cases outcome

/-- The request was called on prefixes of `s` of at most `n` bytes and not rejected. -/
inductive Standing (s : Bytes) (n : ℕ) : HttpRequest → Bytes → Prop where
  | searching {m : HttpMsg} (searching : m.Searching s n) :
      Standing s n { cleared with toHttpMsg := m } s
  | past {req : HttpRequest} {mem : Bytes} (past : req.Past) : Standing s n req mem

/-- **A call on a request that has not been rejected** does not reject it, or finds a line
that is rejected again and again, unless the URI is to blame. -/
theorem Standing.step (standing : Standing s n req mem) (le : n ≤ n')
    {copyBody : Bool} (sound : ¬ ∃ k, RejectedUri s copyBody k) :
    ((req.tryDecode (mem.take n') copyBody).outcome ≠ .ok .error ∧
      Standing s n' (req.tryDecode (mem.take n') copyBody).msg
        ((req.tryDecode (mem.take n') copyBody).buf ++ mem.drop n')) ∨
    ((req.tryDecode (mem.take n') copyBody).outcome = .ok .error ∧
      (req.tryDecode (mem.take n') copyBody).msg.Broken n'
        ((req.tryDecode (mem.take n') copyBody).buf ++ mem.drop n')) := by
  cases standing with
  | past past =>
      obtain ⟨fine, after⟩ := tryDecode_past past (mem.take n') copyBody
      exact .inl ⟨fine, .past after⟩
  | @searching m searching =>
      have same : { cleared with toHttpMsg := m }.tryDecode (s.take n') copyBody =
          cleared.tryDecode (s.take n') copyBody := by
        simp only [tryDecode, searching.tryDecode_eq le copyBody]
        rfl
      rw [same]
      rcases HttpMsg.missing_or_headAt s n' with ⟨k, found, searched, missing⟩ | ⟨k, headAt⟩
      · -- The empty line has not arrived.
        obtain ⟨unfolded, searches⟩ := HttpMsg.tryDecode_missing searched missing copyBody
        have first : cleared.tryDecode (s.take n') copyBody =
            ⟨.ok .notComplete, { cleared with toHttpMsg := { HttpMsg.cleared with scanned := k } }, [],
              s.take n'⟩ := by
          have below : cleared.toHttpMsg.tryDecode (s.take n') copyBody = _ := unfolded
          simp only [tryDecode, below]
          rfl
        rw [first]
        refine .inl ⟨by simp, ?_⟩
        simp only [List.take_append_drop]
        exact .searching searches
      · obtain ⟨⟨version, msg⟩, buf⟩ := tryDecode_leaves cleared (s.take n') copyBody
        by_cases accepts : (HttpMsg.headOf s k).Accepts
        · refine .inl ⟨fun fails => sound ⟨k, .of_error headAt accepts fails⟩, .past ?_⟩
          rw [msg]
          exact (headAt.past accepts copyBody).2
        · -- A header line is to blame.
          have refused := not_not.mp (mt (HttpMsg.accepts_iff s k).mpr accepts)
          obtain ⟨headers, below⟩ := headAt.tryDecode_refused refused copyBody
          refine .inr ⟨tryDecode_error (congrArg Decode.outcome below), ?_⟩
          have lower : cleared.toHttpMsg.tryDecode (s.take n') copyBody = _ := below
          rw [msg, buf, lower]
          exact (headAt.broken refused).again headers _ version

end HttpRequest

/-! ## Errors are final -/

/-- Once a call has returned `Error`, so does every later one. -/
def ErrorsFinal (outcomes : List (Except DecodeFault Result)) : Prop :=
  outcomes.Pairwise fun first later => first = .ok .error → later = .ok .error

namespace HttpRequest

variable {s mem : Bytes} {n n' k : ℕ} {req : HttpRequest} {copyBody : Bool}

/-- After a bad line, all calls return `Error`. -/
theorem feed_broken {calls : List (ℕ × Bytes)} (growing : (calls.map Prod.fst).Pairwise (· ≤ ·))
    (below : ∀ call ∈ calls, n ≤ call.1) (broken : req.Broken n mem) :
    ∀ outcome ∈ (feed (decoder copyBody) req mem calls).outcomes, outcome = .ok .error := by
  induction calls generalizing n req mem with
  | nil => simp [feed]
  | cons call rest ih =>
      obtain ⟨later, growing⟩ := List.pairwise_cons.mp growing
      obtain ⟨fails, again⟩ := tryDecode_broken (broken.mono (below call List.mem_cons_self)) copyBody
      intro outcome member
      rcases List.mem_cons.mp member with rfl | member
      · exact fails
      · exact ih growing (fun other among => later other.1 (List.mem_map_of_mem among)) again
          outcome member

/-- Without a rejected URI, errors are final. -/
theorem feed_standing {calls : List (ℕ × Bytes)} (growing : (calls.map Prod.fst).Pairwise (· ≤ ·))
    (below : ∀ call ∈ calls, n ≤ call.1) (standing : Standing s n req mem)
    (sound : ¬ ∃ k, RejectedUri s copyBody k) :
    ErrorsFinal (feed (decoder copyBody) req mem calls).outcomes := by
  induction calls generalizing n req mem with
  | nil => exact .nil
  | cons call rest ih =>
      obtain ⟨later, growing⟩ := List.pairwise_cons.mp growing
      have above : ∀ other ∈ rest, call.1 ≤ other.1 :=
        fun other among => later other.1 (List.mem_map_of_mem among)
      rcases standing.step (below call List.mem_cons_self) sound with
        ⟨fine, stands⟩ | ⟨fails, broken⟩
      · exact .cons (fun _ _ wrong => absurd wrong fine) (ih growing above stands)
      · have all : ∀ outcome ∈ (feed (decoder copyBody) _ _ rest).outcomes, outcome = .ok .error :=
          feed_broken growing above broken
        refine .cons (fun outcome member _ => all outcome member) ?_
        exact List.pairwise_of_forall_mem_list fun _ _ outcome member _ => all outcome member

/-- **A rejected URI is forgotten** by the next call. -/
theorem RejectedUri.forgotten (rejected : RejectedUri s copyBody k) :
    ¬ ErrorsFinal (feed (decoder copyBody) cleared s [(k + 4, []), (k + 4, [])]).outcomes := by
  have headAt : HttpMsg.HeadAt s (k + 4) k := by
    have found := (HttpMsg.scan_found_at rejected.headAt.found).2
    rw [List.take_length] at found
    exact ⟨found, rejected.headAt.positive⟩
  obtain ⟨outcome, msg, line1, buf⟩ := headAt.tryDecode_eq rejected.accepts copyBody
  have size : ((HttpMsg.headOf s k).buf ++ (s.take (k + 4)).drop k).length = k + 4 := by
    have long := headAt.length_buf
    have short := List.length_take_le (k + 4) s
    rw [List.length_append, List.length_drop, HttpMsg.length_headOf rejected.headAt.le.2] at long ⊢
    omega
  have fails : (cleared.tryDecode (s.take (k + 4)) copyBody).outcome = .ok .error := by
    obtain ⟨r, returns⟩ : ∃ r, ((HttpMsg.headOf s k).msg.decodeBody
        ((HttpMsg.headOf s k).buf ++ (s.take (k + 4)).drop k) copyBody).1 = .ok r := by
      have short := rejected.returns
      rw [← HttpMsg.scanned_headOf rejected.accepts] at short
      simp only [HttpMsg.decodeBody]
      split_ifs with arrived throws
      · rw [size, ← HttpMsg.scanned_headOf rejected.accepts] at arrived
        obtain ⟨copied, large⟩ := throws
        rcases short with views | small | late
        · exact absurd (copied.symm.trans views) (by decide)
        · exact absurd large (not_le.mpr small)
        · exact absurd arrived (not_le.mpr late)
      · exact ⟨_, rfl⟩
      · exact ⟨_, rfl⟩
    rw [returns] at outcome
    obtain ⟨r', below⟩ := settled_ok outcome
    have first : cleared.tryDecode (s.take (k + 4)) copyBody = _ :=
      tryDecode_unstarted (m := .cleared) rfl below
    rw [first, line1, rejected.rejects]
    rfl
  have past : (cleared.tryDecode (s.take (k + 4)) copyBody).msg.Past := by
    obtain ⟨⟨version, left⟩, -⟩ := tryDecode_leaves cleared (s.take (k + 4)) copyBody
    rw [left]
    exact (headAt.past rejected.accepts copyBody).2
  intro final
  exact (tryDecode_past past _ copyBody).1 (List.rel_of_pairwise_cons final List.mem_cons_self fails)

/-- **Errors are final exactly on the strings whose URI is not rejected**, over all sequences
of calls on growing prefixes. -/
theorem errors_final_iff (s : Bytes) (copyBody : Bool) :
    (∀ calls : List (ℕ × Bytes), (calls.map Prod.fst).Pairwise (· ≤ ·) →
      ErrorsFinal (feed (decoder copyBody) cleared s calls).outcomes) ↔
        ¬ ∃ k, RejectedUri s copyBody k := by
  constructor
  · rintro final ⟨k, rejected⟩
    exact rejected.forgotten (final _ (by simp))
  · intro sound calls growing
    exact feed_standing growing (fun _ _ => Nat.zero_le _) (.searching (.start s)) sound

/-- A request whose URI does not begin with a slash. -/
def slashless : Bytes := ascii "GET x HTTP/1.1\r\n\r\n"

/-- It is rejected, and complete when the read callback runs once more. -/
theorem rejected_request_completes :
    (feed (decoder true) cleared slashless [(18, []), (18, [])]).outcomes =
      [.ok .error, .ok .complete] ∧
    ¬ ∀ calls : List (ℕ × Bytes), (calls.map Prod.fst).Pairwise (· ≤ ·) →
      ErrorsFinal (feed (decoder true) cleared slashless calls).outcomes := by
  have outcomes : (feed (decoder true) cleared slashless [(18, []), (18, [])]).outcomes =
      [.ok .error, .ok .complete] := by decide +kernel
  refine ⟨outcomes, fun final => ?_⟩
  have both := final [(18, []), (18, [])] (by decide)
  rw [outcomes] at both
  cases List.rel_of_pairwise_cons both List.mem_cons_self rfl

end HttpRequest

end Handy
