import Handy.Http

/-!
# Decoding in pieces

A decoder that is called again and again while a message arrives, on longer and longer
prefixes of it, ends up as if it had been called once on the last prefix. Two things carry
this. The search for the empty line goes on where it stopped, and finds what a search from
the start finds (`scan_append_missing`). Once the head is complete, the message that it
leaves does not depend on what follows the head (`HttpMsg.decodeHead_append`), and with
the content length that it announces the head is not looked at again.

A response takes its status from a place where `atoi` may look beyond the start line, and
even beyond the buffer. It does not look behind a colon, and without one there is no
content length and nothing to wait for.
-/

set_option autoImplicit false

namespace Handy

/-- Only the lower half of a size reaches an `int`. -/
theorem toInt32_emod (size : ℤ) : toInt32 (size % 2 ^ 64) = toInt32 size := by
  have lower : size % 2 ^ 64 % (2 ^ 32 : ℕ) = size % (2 ^ 32 : ℕ) :=
    Int.emod_emod_of_dvd _ (by norm_num)
  rw [toInt32, toInt32, ← Int.emod_bmod, lower, Int.emod_bmod]

namespace HttpMsg

/-! ## The search for the empty line -/

/-- A search that succeeds is not changed by what follows. -/
theorem scan_append_found {s : Bytes} {i k : ℕ} (found : scan s i = (k, true)) (more : Bytes) :
    scan (s ++ more) i = (k, true) := by
  fun_induction scan s i with
  | case1 c rest i short => cases found
  | case2 c rest i long here =>
      obtain ⟨rfl, -⟩ := Prod.mk.inj found
      have more_long : ¬ (rest ++ more).length < 3 := by rw [List.length_append]; omega
      rw [List.cons_append, scan, if_neg more_long, List.take_append_of_le_length (by omega),
        if_pos here]
  | case3 c rest i long elsewhere ih =>
      have more_long : ¬ (rest ++ more).length < 3 := by rw [List.length_append]; omega
      rw [List.cons_append, scan, if_neg more_long, List.take_append_of_le_length (by omega),
        if_neg elsewhere]
      exact ih found
  | case4 i => cases found

/-- **A search that fails is resumed where it stopped.** -/
theorem scan_append_missing {s : Bytes} {i k : ℕ} (missing : scan s i = (k, false)) (more : Bytes) :
    i ≤ k ∧ scan (s ++ more) i = scan ((s ++ more).drop (k - i)) k := by
  fun_induction scan s i with
  | case1 c rest i short =>
      obtain ⟨rfl, -⟩ := Prod.mk.inj missing
      simp
  | case2 c rest i long here => cases missing
  | case3 c rest i long elsewhere ih =>
      have more_long : ¬ (rest ++ more).length < 3 := by rw [List.length_append]; omega
      obtain ⟨le, resumed⟩ := ih missing
      obtain ⟨d, rfl⟩ := Nat.exists_eq_add_of_le le
      rw [List.cons_append, scan, if_neg more_long, List.take_append_of_le_length (by omega),
        if_neg elsewhere, resumed]
      refine ⟨by omega, ?_⟩
      rw [show i + 1 + d - i = d + 1 by omega, List.drop_succ_cons,
        show i + 1 + d - (i + 1) = d by omega]
  | case4 i =>
      obtain ⟨rfl, -⟩ := Prod.mk.inj missing
      simp

/-- Where a search succeeds, the empty line stands. -/
theorem scan_found {s : Bytes} {i k : ℕ} (found : scan s i = (k, true)) :
    i ≤ k ∧ k - i + 4 ≤ s.length := by
  fun_induction scan s i with
  | case1 c rest i short => cases found
  | case2 c rest i long here =>
      obtain ⟨rfl, -⟩ := Prod.mk.inj found
      rw [List.length_cons]
      omega
  | case3 c rest i long elsewhere ih =>
      have bounds := ih found
      rw [List.length_cons]
      omega
  | case4 i => cases found

/-! ## The head -/

theorem length_eatLine (s : Bytes) : (eatLine s).1.length + (eatLine s).2.length = s.length := by
  rw [← List.length_append, eatLine_append]

theorem length_splitLine (ln : Bytes) : (splitLine ln).margin.length +
    (splitLine ln).name.length + (splitLine ln).rest.length = ln.length := by
  have front := congrArg List.length (List.takeWhile_append_dropWhile (p := isSpace) (l := ln))
  have back := congrArg List.length (List.takeWhile_append_dropWhile (p := fun c => !isSpace c)
    (l := ln.dropWhile isSpace))
  rw [List.length_append] at front back
  simp only [splitLine, eatWord]
  omega

/-- Lower-casing does not change lengths. -/
theorem length_decodeLines (fuel : ℕ) (headers : StringMap) (req : Bytes) :
    (decodeLines fuel headers req).buf.length = req.length := by
  fun_induction decodeLines fuel headers req with
  | case1 fuel headers => rfl
  | case2 headers req => rfl
  | case3 fuel headers c => rfl
  | case4 fuel headers c d req ln rest shape line value named name tail ih =>
      have lines := length_eatLine req
      have parts := length_splitLine ln
      have same : tail.buf.length = rest.length := ih
      rw [shape] at lines
      simp only [List.length_cons, List.length_append, name, List.length_map, line, same]
      simp only at lines
      omega
  | case5 fuel headers c d req ln rest shape line value unnamed empty => rfl
  | case6 fuel headers c d req ln rest shape line value unnamed other => rfl

/-- A header is not found without a colon. -/
theorem colon_of_decodeLines (fuel : ℕ) (headers : StringMap) (req : Bytes) :
    (decodeLines fuel headers req).headers = headers ∨ 58 ∈ (decodeLines fuel headers req).buf := by
  fun_cases decodeLines fuel headers req with
  | case4 fuel headers c d req ln rest shape line value named name tail =>
      right
      have colon : 58 ∈ line.name := List.mem_of_getLast? named.2.2
      have lowered : 58 ∈ name := List.mem_map.mpr ⟨58, colon, rfl⟩
      simp only [List.mem_cons, List.mem_append]
      exact .inr (.inr (.inl (.inl (.inr lowered))))
  | _ => exact .inl rfl

/-- The answers of the first part that let the decoder go on. -/
def Head.Accepts (head : Head) : Prop := head.answer = none ∨ head.answer = some .continue100

/-- The message that a head leaves does not depend on what follows it. -/
theorem readHead_rest (m : HttpMsg) (req rest : Bytes) :
    (m.readHead req rest).msg = (m.readHead req []).msg ∧
    (m.readHead req rest).line1 = (m.readHead req []).line1 ∧
    (m.readHead req rest).buf = (m.readHead req []).buf ++ rest ∧
    ((m.readHead req rest).Accepts ↔ (m.readHead req []).Accepts) ∧
    ((m.readHead req rest).Accepts ∨ (m.readHead req rest).answer = some .error) := by
  simp only [readHead, Head.Accepts]
  split_ifs <;> simp

/-- `Continue100` is returned while bytes of the body are missing. -/
theorem readHead_continue {m : HttpMsg} {req rest : Bytes}
    (waits : (m.readHead req rest).answer = some .continue100) :
    (m.readHead req rest).buf.length < addSize (m.readHead req rest).msg.contentLen
      (m.readHead req rest).msg.scanned := by
  simp only [readHead] at waits ⊢
  split_ifs at * with refused expects
  · cases waits
  · exact expects.1

/-- An accepted head. -/
theorem readHead_accepts {m : HttpMsg} {req rest : Bytes} (accepts : (m.readHead req rest).Accepts) :
    (m.readHead req rest).msg =
      m.endHead (decodeLines (eatLine req).2.length m.headers (eatLine req).2).headers := by
  simp only [readHead, Head.Accepts] at accepts ⊢
  split_ifs at accepts ⊢
  · simp at accepts
  · rfl
  · rfl

theorem contentLen_endHead_empty (m : HttpMsg) : (m.endHead cleared.headers).contentLen = 0 := by
  have none : getValueFromMap cleared.headers (ascii "content-length") = [] := by
    rw [getValueFromMap, cleared, OrderedMap.find?_empty, Option.getD_none]
  rw [endHead, none]
  show toSize (atoi []) = 0
  decide

theorem buf_readHead (m : HttpMsg) (req rest : Bytes) :
    (m.readHead req rest).line1 = (eatLine req).1 ∧
    (m.readHead req rest).buf = (eatLine req).1 ++
      (decodeLines (eatLine req).2.length m.headers (eatLine req).2).buf ++ rest := by
  simp only [readHead]
  split_ifs <;> exact ⟨rfl, rfl⟩

theorem length_readHead (m : HttpMsg) (req : Bytes) :
    (m.readHead req []).buf.length = req.length := by
  have lines := length_eatLine req
  have same := length_decodeLines (eatLine req).2.length m.headers (eatLine req).2
  rw [(buf_readHead m req []).2, List.append_nil, List.length_append, same, lines]

theorem decodeHead_found {m : HttpMsg} {buf : Bytes} {k : ℕ}
    (found : scan (buf.drop m.scanned) m.scanned = (k, true)) (positive : 0 < k) :
    m.decodeHead buf = { m with scanned := k }.readHead (buf.take k) (buf.drop k) := by
  have long := (scan_found found).2
  rw [List.length_drop] at long
  have nonempty : buf.take k ≠ [] := by
    rw [← List.length_pos_iff, List.length_take]
    omega
  simp only [decodeHead, found, if_true, if_neg nonempty]

theorem decodeHead_missing {m : HttpMsg} {buf : Bytes} {k : ℕ} {found : Bool}
    (searched : scan (buf.drop m.scanned) m.scanned = (k, found)) (missing : found = false ∨ k = 0) :
    m.decodeHead buf = ⟨some .notComplete, { m with scanned := k }, [], buf⟩ := by
  have empty : (if found = true then buf.take k else []) = [] := by
    rcases missing with rfl | rfl <;> simp
  simp only [decodeHead, searched, empty, if_true]

/-- A call that ends with the first part. -/
theorem tryDecode_answer {m : HttpMsg} {buf : Bytes} {r : Result} {copyBody : Bool}
    (isOpen : m.complete = false) (idle : m.contentLen = 0)
    (answer : (m.decodeHead buf).answer = some r) :
    m.tryDecode buf copyBody =
      ⟨.ok r, (m.decodeHead buf).msg, (m.decodeHead buf).line1, (m.decodeHead buf).buf⟩ := by
  simp only [tryDecode, isOpen, Bool.false_eq_true, if_false, if_pos idle, answer]

/-- A call that goes on with the body. -/
theorem tryDecode_goesOn {m : HttpMsg} {buf : Bytes} {copyBody : Bool} (isOpen : m.complete = false)
    (idle : m.contentLen = 0) (answer : (m.decodeHead buf).answer = none) :
    m.tryDecode buf copyBody =
      let body := (m.decodeHead buf).msg.decodeBody (m.decodeHead buf).buf copyBody
      ⟨body.1, body.2, (m.decodeHead buf).line1, (m.decodeHead buf).buf⟩ := by
  simp only [tryDecode, isOpen, Bool.false_eq_true, if_false, if_pos idle, answer]

/-- A call that does not look at the head. -/
theorem tryDecode_body {m : HttpMsg} (buf : Bytes) (copyBody : Bool) (isOpen : m.complete = false)
    (reading : m.contentLen ≠ 0) :
    m.tryDecode buf copyBody =
      ⟨(m.decodeBody buf copyBody).1, (m.decodeBody buf copyBody).2, [], buf⟩ := by
  simp only [tryDecode, isOpen, Bool.false_eq_true, if_false, if_neg reading]

/-- The decoder leaves the version to the start line. -/
theorem version_decodeBody (m : HttpMsg) (buf : Bytes) (copyBody : Bool) :
    (m.decodeBody buf copyBody).2.version = m.version := by
  simp only [decodeBody, takeBody]
  split_ifs <;> rfl

theorem version_decodeHead (m : HttpMsg) (buf : Bytes) :
    (m.decodeHead buf).msg.version = m.version := by
  simp only [decodeHead, readHead, endHead]
  split_ifs <;> rfl

theorem version_tryDecode (m : HttpMsg) (buf : Bytes) (copyBody : Bool) :
    (m.tryDecode buf copyBody).msg.version = m.version := by
  unfold tryDecode
  split_ifs
  · rfl
  · cases answer : (m.decodeHead buf).answer with
    | some r => simpa only [answer] using version_decodeHead m buf
    | none =>
        simp only [answer]
        rw [version_decodeBody, version_decodeHead]
  · exact version_decodeBody m buf copyBody

theorem decodeBody_version (m : HttpMsg) (buf : Bytes) (copyBody : Bool) (version : Bytes) :
    { m with version := version }.decodeBody buf copyBody =
      ((m.decodeBody buf copyBody).1,
        { (m.decodeBody buf copyBody).2 with version := version }) := by
  simp only [decodeBody, takeBody]
  split_ifs <;> rfl

end HttpMsg

/-! ## Answers -/

/-- The answers of a decoder, when `Continue100` counts as `NotComplete`. -/
def Result.settled : Result → Result
  | .continue100 => .notComplete
  | r => r

/-- The outcomes of a decoder, when `Continue100` counts as `NotComplete`. -/
def settled (outcome : Except DecodeFault Result) : Except DecodeFault Result :=
  outcome.map Result.settled

/-- The call has returned `NotComplete` or `Continue100`. -/
def Pending (outcome : Except DecodeFault Result) : Prop :=
  outcome = .ok .notComplete ∨ outcome = .ok .continue100

instance (outcome : Except DecodeFault Result) : Decidable (Pending outcome) :=
  inferInstanceAs (Decidable (_ ∨ _))

theorem settled_ok {outcome : Except DecodeFault Result} {r : Result}
    (same : settled outcome = settled (.ok r)) : ∃ r', outcome = .ok r' := by
  cases outcome with
  | error other => cases same
  | ok r' => exact ⟨r', rfl⟩

theorem settled_complete {outcome : Except DecodeFault Result}
    (same : settled outcome = settled (.ok .complete)) : outcome = .ok .complete := by
  cases outcome with
  | error fault => cases same
  | ok r => cases r <;> first | rfl | cases same

namespace HttpMsg

variable {s mem : Bytes} {n n' k : ℕ} {m : HttpMsg}

/-! ## Before the head is complete -/

/-- The message was called on prefixes of `s` of at most `n` bytes, and has not found the
empty line there. -/
structure Searching (s : Bytes) (n : ℕ) (m : HttpMsg) : Prop where
  fresh : m = { cleared with scanned := m.scanned }
  resumes : ∀ n', n ≤ n' → scan ((s.take n').drop m.scanned) m.scanned = scan (s.take n') 0

theorem Searching.start (s : Bytes) : Searching s 0 cleared := ⟨rfl, fun _ _ => rfl⟩

/-- **While the head is incomplete, every call is like the first.** -/
theorem Searching.tryDecode_eq (searching : Searching s n m) (le : n ≤ n') (copyBody : Bool) :
    m.tryDecode (s.take n') copyBody = cleared.tryDecode (s.take n') copyBody := by
  have head : m.decodeHead (s.take n') = cleared.decodeHead (s.take n') := by
    have same := searching.resumes n' le
    rw [searching.fresh] at same ⊢
    simp only [decodeHead] at same ⊢
    rw [same]
    rfl
  have idle : m.complete = false ∧ m.contentLen = 0 := by
    rw [searching.fresh]
    exact ⟨rfl, rfl⟩
  simp only [tryDecode, idle.1, idle.2, head]
  rfl

/-- The head of a prefix of `s` ends at `k`. -/
structure HeadAt (s : Bytes) (n k : ℕ) : Prop where
  found : scan (s.take n) 0 = (k, true)
  positive : 0 < k

theorem take_grows (s : Bytes) (le : n ≤ n') : s.take n' = s.take n ++ (s.take n').drop n := by
  have split := List.take_append_drop n (s.take n')
  rwa [List.take_take, Nat.min_eq_left le, eq_comm] at split

theorem drop_take_append (s : Bytes) (le : k ≤ n) : (s.take n).drop k ++ s.drop n = s.drop k := by
  have rest : s.drop n = (s.drop k).drop (n - k) := by
    rw [List.drop_drop, Nat.add_sub_cancel' le]
  rw [List.drop_take, rest, List.take_append_drop]

namespace HeadAt

theorem mono (headAt : HeadAt s n k) (le : n ≤ n') : HeadAt s n' k := by
  refine ⟨?_, headAt.positive⟩
  rw [take_grows s le]
  exact scan_append_found headAt.found _

theorem le (headAt : HeadAt s n k) : k ≤ n ∧ k ≤ s.length := by
  have bound := (scan_found headAt.found).2
  rw [List.length_take] at bound
  omega

end HeadAt

/-- What the head that ends at `k` comes to. -/
def headOf (s : Bytes) (k : ℕ) : Head := { cleared with scanned := k }.readHead (s.take k) []

theorem length_headOf (le : k ≤ s.length) : (headOf s k).buf.length = k := by
  rw [headOf, length_readHead, List.length_take, Nat.min_eq_left le]

theorem HeadAt.decodeHead_eq (headAt : HeadAt s n k) :
    cleared.decodeHead (s.take n) =
      { cleared with scanned := k }.readHead (s.take k) ((s.take n).drop k) := by
  have found : scan ((s.take n).drop cleared.scanned) cleared.scanned = (k, true) := headAt.found
  rw [decodeHead_found found headAt.positive, List.take_take, Nat.min_eq_left headAt.le.1]

/-! ## Behind the head -/

/-- The message has read the head, which ends at `k`, and waits for its body; the memory
holds `s` with the names in its head lower-cased. -/
structure Awaiting (s : Bytes) (n k : ℕ) (m : HttpMsg) (mem : Bytes) : Prop where
  headAt : HeadAt s n k
  accepts : (headOf s k).Accepts
  msg : m = { (headOf s k).msg with version := m.version }
  length : (headOf s k).msg.contentLen ≠ 0
  memory : mem = (headOf s k).buf ++ s.drop k

theorem Awaiting.take_memory (awaiting : Awaiting s n k m mem) (le : n ≤ n') :
    mem.take n' = (headOf s k).buf ++ (s.take n').drop k := by
  obtain ⟨before, inside⟩ := awaiting.headAt.le
  rw [awaiting.memory, List.take_append, length_headOf inside,
    List.take_of_length_le (by rw [length_headOf inside]; omega), List.drop_take]

theorem Awaiting.with_version (awaiting : Awaiting s n k m mem) (version : Bytes) :
    Awaiting s n k { m with version := version } mem := by
  refine ⟨awaiting.headAt, awaiting.accepts, ?_, awaiting.length, awaiting.memory⟩
  rw [awaiting.msg]

/-- A decoder whose first part goes on. -/
theorem HeadAt.tryDecode_eq (headAt : HeadAt s n k) (accepts : (headOf s k).Accepts)
    (copyBody : Bool) :
    let body := (headOf s k).msg.decodeBody ((headOf s k).buf ++ (s.take n).drop k) copyBody
    settled (cleared.tryDecode (s.take n) copyBody).outcome = settled body.1 ∧
      (cleared.tryDecode (s.take n) copyBody).msg = body.2 ∧
      (cleared.tryDecode (s.take n) copyBody).line1 = (headOf s k).line1 ∧
      (cleared.tryDecode (s.take n) copyBody).buf = (headOf s k).buf ++ (s.take n).drop k := by
  obtain ⟨msg, line1, buf, same, -⟩ :=
    readHead_rest { cleared with scanned := k } (s.take k) ((s.take n).drop k)
  rcases same.mpr accepts with goesOn | waits
  · rw [← headAt.decodeHead_eq] at msg line1 buf goesOn
    rw [tryDecode_goesOn rfl rfl goesOn, msg, line1, buf]
    exact ⟨rfl, rfl, rfl, rfl⟩
  · have short : ¬ addSize (headOf s k).msg.contentLen (headOf s k).msg.scanned ≤
        ((headOf s k).buf ++ (s.take n).drop k).length := by
      rw [not_le, headOf, ← msg, ← buf]
      exact readHead_continue waits
    rw [← headAt.decodeHead_eq] at msg line1 buf waits
    rw [tryDecode_answer rfl rfl waits, msg, line1, buf, decodeBody, if_neg short]
    exact ⟨rfl, rfl, rfl, rfl⟩

theorem accepts_headOf (s : Bytes) (k : ℕ) : (headOf s k).Accepts ↔
    (decodeLines (eatLine (s.take k)).2.length .empty (eatLine (s.take k)).2).accepted = true := by
  have fresh : cleared.headers = OrderedMap.empty := rfl
  simp only [headOf, readHead, Head.Accepts, fresh]
  split_ifs with rejected expects
  · simpa using rejected
  · simpa using rejected
  · simpa using rejected

/-- A head that is not accepted. -/
theorem HeadAt.tryDecode_error (headAt : HeadAt s n k) (refused : ¬ (headOf s k).Accepts)
    (copyBody : Bool) : (cleared.tryDecode (s.take n) copyBody).outcome = .ok .error := by
  obtain ⟨-, -, -, same, answers⟩ :=
    readHead_rest { cleared with scanned := k } (s.take k) ((s.take n).drop k)
  have answer := answers.resolve_left fun accepts => refused (same.mp accepts)
  rw [← headAt.decodeHead_eq] at answer
  rw [tryDecode_answer rfl rfl answer]

/-- The buffer holds the whole head. -/
theorem HeadAt.length_buf (headAt : HeadAt s n k) :
    k + 4 ≤ ((headOf s k).buf ++ (s.take n).drop k).length := by
  have bound := (scan_found headAt.found).2
  rw [List.length_append, length_headOf headAt.le.2, List.length_drop]
  omega

theorem scanned_headOf (accepts : (headOf s k).Accepts) : (headOf s k).msg.scanned = k + 4 := by
  rw [headOf, readHead_accepts accepts]
  rfl

/-- The body of a message that had none is the one that is taken. -/
theorem getBody_takeBody {m : HttpMsg} (body : m.body = []) (body2 : m.body2 = [])
    (inside : m.stray = false) (buf : Bytes) (copyBody : Bool) :
    (m.takeBody buf copyBody).getBody = (buf.drop m.scanned).take m.contentLen := by
  cases copyBody with
  | true => simp [takeBody, getBody, body2, inside]
  | false =>
      simp only [takeBody, getBody, body, Bool.false_eq_true, if_false]
      split_ifs with view
      · rfl
      · exact (List.length_eq_zero_iff.mp (not_ne_iff.mp (not_or.mp view).2)).symm

theorem decodeBody_pending {m : HttpMsg} {buf : Bytes} {copyBody : Bool}
    (pending : Pending (m.decodeBody buf copyBody).1) :
    m.decodeBody buf copyBody = (.ok .notComplete, m) ∧
      buf.length < addSize m.contentLen m.scanned := by
  by_cases arrived : addSize m.contentLen m.scanned ≤ buf.length
  · rw [decodeBody, if_pos arrived] at pending
    split_ifs at pending
    all_goals simp [Pending] at pending
  · rw [decodeBody, if_neg arrived]
    exact ⟨rfl, not_le.mp arrived⟩

theorem pending_iff (outcome : Except DecodeFault Result) :
    Pending outcome ↔ settled outcome = .ok .notComplete := by
  cases outcome with
  | error fault => simp [Pending, settled, Except.map]
  | ok r => cases r <;> simp [Pending, settled, Except.map, Result.settled]

/-- A call that does not find the empty line, or finds it at the very start, goes on searching. -/
theorem tryDecode_missing {found : Bool} (searched : scan (s.take n) 0 = (k, found))
    (missing : found = false ∨ k = 0) (copyBody : Bool) :
    cleared.tryDecode (s.take n) copyBody =
        ⟨.ok .notComplete, { cleared with scanned := k }, [], s.take n⟩ ∧
      Searching s n { cleared with scanned := k } := by
  constructor
  · have head := decodeHead_missing
      (show scan ((s.take n).drop cleared.scanned) cleared.scanned = (k, found) from searched) missing
    rw [tryDecode_answer rfl rfl (congrArg Head.answer head), head]
  · refine ⟨rfl, fun n' le => ?_⟩
    rcases missing with rfl | rfl
    · have resumed := (scan_append_missing searched ((s.take n').drop n)).2
      rw [← take_grows s le, Nat.sub_zero] at resumed
      exact resumed.symm
    · rfl

/-- A search on a prefix misses the head, or finds where it ends. -/
theorem missing_or_headAt (s : Bytes) (n : ℕ) :
    (∃ k found, scan (s.take n) 0 = (k, found) ∧ (found = false ∨ k = 0)) ∨ ∃ k, HeadAt s n k := by
  rcases searched : scan (s.take n) 0 with ⟨k, found⟩
  by_cases missing : found = false ∨ k = 0
  · exact .inl ⟨k, found, rfl, missing⟩
  · obtain ⟨there, positive⟩ := not_or.mp missing
    exact .inr ⟨k, by rw [searched, Bool.eq_true_of_not_eq_false there], by omega⟩

/-- A call that neither completes nor rejects a message leaves it searching for the empty
line, or waiting for the body. -/
theorem pending_cases {copyBody : Bool}
    (pending : Pending (cleared.tryDecode (s.take n) copyBody).outcome) :
    (Searching s n (cleared.tryDecode (s.take n) copyBody).msg ∧
      (cleared.tryDecode (s.take n) copyBody).line1 = [] ∧
      (cleared.tryDecode (s.take n) copyBody).buf = s.take n) ∨
    ∃ k, Awaiting s n k (cleared.tryDecode (s.take n) copyBody).msg
        ((cleared.tryDecode (s.take n) copyBody).buf ++ s.drop n) ∧
      (cleared.tryDecode (s.take n) copyBody).line1 = (headOf s k).line1 := by
  rcases missing_or_headAt s n with ⟨k, found, searched, missing⟩ | ⟨k, headAt⟩
  · left
    obtain ⟨unfolded, searching⟩ := tryDecode_missing searched missing copyBody
    rw [unfolded]
    exact ⟨searching, rfl, rfl⟩
  · right
    have accepts : (headOf s k).Accepts := by
      by_contra refused
      rw [headAt.tryDecode_error refused copyBody] at pending
      simp [Pending] at pending
    obtain ⟨outcome, msg, line1, buf⟩ := headAt.tryDecode_eq accepts copyBody
    rw [pending_iff, outcome, ← pending_iff] at pending
    obtain ⟨waits, short⟩ := decodeBody_pending pending
    refine ⟨k, ⟨headAt, accepts, ?_, ?_, ?_⟩, line1⟩
    · rw [msg, waits]
    · intro empty
      have long := headAt.length_buf
      have wraps : (0 + (k + 4)) % 2 ^ 64 ≤ k + 4 := by omega
      rw [empty, scanned_headOf accepts, addSize] at short
      omega
    · rw [buf, List.append_assoc, drop_take_append s headAt.le.1]

namespace Awaiting

variable (awaiting : Awaiting s n k m mem) (le : n ≤ n')

include awaiting

theorem isOpen : m.complete = false := by
  rw [awaiting.msg, headOf, readHead_accepts awaiting.accepts]
  rfl

theorem reading : m.contentLen ≠ 0 := by
  rw [awaiting.msg]
  exact awaiting.length

/-- There is a colon behind the start line. -/
theorem colon : ∃ lines, (headOf s k).buf = (headOf s k).line1 ++ lines ∧ 58 ∈ lines := by
  obtain ⟨line1, buf⟩ := buf_readHead { cleared with scanned := k } (s.take k) []
  rw [← line1, List.append_nil] at buf
  refine ⟨_, buf, (colon_of_decodeLines _ _ _).resolve_left fun unchanged => awaiting.length ?_⟩
  rw [headOf, readHead_accepts awaiting.accepts, unchanged]
  exact contentLen_endHead_empty _

include le

/-- **Once the head is complete, a later call is like the first**, but does not see the start
line. -/
theorem tryDecode_eq (copyBody : Bool) :
    settled (m.tryDecode (mem.take n') copyBody).outcome =
        settled (cleared.tryDecode (s.take n') copyBody).outcome ∧
      (m.tryDecode (mem.take n') copyBody).msg =
        { (cleared.tryDecode (s.take n') copyBody).msg with version := m.version } ∧
      (m.tryDecode (mem.take n') copyBody).line1 = [] ∧
      (cleared.tryDecode (s.take n') copyBody).line1 = (headOf s k).line1 ∧
      (m.tryDecode (mem.take n') copyBody).buf = mem.take n' := by
  obtain ⟨outcome, msg, line1, buf⟩ :=
    (awaiting.headAt.mono le).tryDecode_eq awaiting.accepts copyBody
  have memory := awaiting.take_memory le
  have body := decodeBody_version (headOf s k).msg (mem.take n') copyBody m.version
  rw [← awaiting.msg] at body
  rw [tryDecode_body _ _ awaiting.isOpen awaiting.reading, body, outcome, msg, memory]
  exact ⟨rfl, rfl, rfl, line1, rfl⟩

/-- A call that is pending changes nothing. -/
theorem pending {copyBody : Bool} (pending : Pending (m.tryDecode (mem.take n') copyBody).outcome) :
    (m.tryDecode (mem.take n') copyBody).msg = m ∧ Awaiting s n' k m mem := by
  rw [tryDecode_body _ _ awaiting.isOpen awaiting.reading] at pending ⊢
  refine ⟨congrArg Prod.snd (decodeBody_pending pending).1, ?_⟩
  exact { awaiting with headAt := awaiting.headAt.mono le }

end Awaiting

end HttpMsg

/-! ## Requests -/

namespace HttpRequest

variable {s mem : Bytes} {n n' : ℕ} {req : HttpRequest}

/-- A cleared request after its start line, and whether that is accepted. -/
def start (line1 : Bytes) : Bool × HttpRequest :=
  if line1.length ≠ 0 then cleared.decodeLine line1 else (true, cleared)

/-- The start line has nothing to do with the rest of the message. -/
theorem decodeLine_msg (m : HttpMsg) (line1 : Bytes) :
    { cleared with toHttpMsg := m }.decodeLine line1 =
      ((cleared.decodeLine line1).1, { (cleared.decodeLine line1).2 with
        toHttpMsg := { m with version := (cleared.decodeLine line1).2.version } }) := by
  simp only [decodeLine]
  split_ifs with bad
  · rfl
  · simp only [splitUri]
    split <;> rfl

theorem toHttpMsg_decodeLine (req : HttpRequest) (line1 : Bytes) : ∃ version,
    (req.decodeLine line1).2.toHttpMsg = { req.toHttpMsg with version := version } := by
  refine ⟨(eatWord (eatWord (eatWord line1).2).2).1, ?_⟩
  simp only [decodeLine, splitUri]
  split_ifs
  · rfl
  · split <;> rfl

/-- What a call leaves of the message below and of the buffer. -/
theorem tryDecode_leaves (req : HttpRequest) (buf : Bytes) (copyBody : Bool) :
    (∃ version, (req.tryDecode buf copyBody).msg.toHttpMsg =
      { (req.toHttpMsg.tryDecode buf copyBody).msg with version := version }) ∧
    (req.tryDecode buf copyBody).buf = (req.toHttpMsg.tryDecode buf copyBody).buf := by
  cases returns : (req.toHttpMsg.tryDecode buf copyBody).outcome with
  | error fault =>
      simp only [tryDecode, returns]
      exact ⟨⟨_, rfl⟩, trivial⟩
  | ok r =>
      by_cases there : (req.toHttpMsg.tryDecode buf copyBody).line1.length ≠ 0
      · simp only [tryDecode, returns, if_pos there]
        exact ⟨toHttpMsg_decodeLine _ _, trivial⟩
      · simp only [tryDecode, returns, if_neg there]
        exact ⟨⟨_, rfl⟩, trivial⟩

/-- A call on a request whose start line has not been seen. -/
theorem tryDecode_unstarted {m : HttpMsg} {buf : Bytes} {copyBody : Bool} {r : Result}
    (version : m.version = cleared.version) (returns : (m.tryDecode buf copyBody).outcome = .ok r) :
    { cleared with toHttpMsg := m }.tryDecode buf copyBody =
      ⟨.ok (if (start (m.tryDecode buf copyBody).line1).1 then r else .error),
        { (start (m.tryDecode buf copyBody).line1).2 with
          toHttpMsg := { (m.tryDecode buf copyBody).msg with
            version := (start (m.tryDecode buf copyBody).line1).2.version } },
        (m.tryDecode buf copyBody).line1, (m.tryDecode buf copyBody).buf⟩ := by
  have kept := (HttpMsg.version_tryDecode m buf copyBody).trans version
  have line := decodeLine_msg (m.tryDecode buf copyBody).msg (m.tryDecode buf copyBody).line1
  by_cases there : (m.tryDecode buf copyBody).line1.length ≠ 0
  · simp only [tryDecode, returns, start, if_pos there]
    rw [line]
  · simp only [tryDecode, returns, start, if_neg there, if_true, ← kept]

theorem tryDecode_throws {m : HttpMsg} {buf : Bytes} {copyBody : Bool} {fault : DecodeFault}
    (throws : (m.tryDecode buf copyBody).outcome = .error fault) :
    ({ cleared with toHttpMsg := m }.tryDecode buf copyBody).outcome = .error fault := by
  simp only [tryDecode, throws]

/-- The request was called on prefixes of `s` of at most `n` bytes, and all calls were
pending; the memory holds what they have left of `s`. -/
inductive Resumes (s : Bytes) (n : ℕ) : HttpRequest → Bytes → Prop where
  | searching {m : HttpMsg} (searching : m.Searching s n) :
      Resumes s n { cleared with toHttpMsg := m } s
  | awaiting {m : HttpMsg} {mem : Bytes} {k : ℕ} (awaiting : m.Awaiting s n k mem)
      (accepted : (start (HttpMsg.headOf s k).line1).1 = true)
      (version : m.version = (start (HttpMsg.headOf s k).line1).2.version) :
      Resumes s n { (start (HttpMsg.headOf s k).line1).2 with toHttpMsg := m } mem

/-- What the first call leaves. -/
theorem resumes_of_pending {copyBody : Bool}
    (pending : Pending (cleared.tryDecode (s.take n) copyBody).outcome) :
    Resumes s n (cleared.tryDecode (s.take n) copyBody).msg
      ((cleared.tryDecode (s.take n) copyBody).buf ++ s.drop n) := by
  have unfolded : ∀ r, (HttpMsg.cleared.tryDecode (s.take n) copyBody).outcome = .ok r → _ :=
    fun r returns => tryDecode_unstarted (m := .cleared) rfl returns
  have version : (HttpMsg.cleared.tryDecode (s.take n) copyBody).msg.version = cleared.version :=
    HttpMsg.version_tryDecode _ _ _
  cases returns : (HttpMsg.cleared.tryDecode (s.take n) copyBody).outcome with
  | error fault =>
      have throws : (cleared.tryDecode (s.take n) copyBody).outcome = .error fault :=
        tryDecode_throws returns
      rw [throws] at pending
      simp [Pending] at pending
  | ok r =>
      rw [show cleared.tryDecode (s.take n) copyBody = _ from unfolded r returns] at pending ⊢
      obtain ⟨accepted, waits⟩ :
          (start (HttpMsg.cleared.tryDecode (s.take n) copyBody).line1).1 = true ∧
            Pending (.ok r) := by
        simp only at pending
        split_ifs at pending with accepted
        · exact ⟨accepted, pending⟩
        · simp [Pending] at pending
      rw [← returns] at waits
      rcases HttpMsg.pending_cases waits with ⟨searching, line1, buf⟩ | ⟨k, awaiting, line1⟩
      · have kept : (start []).2.version =
            (HttpMsg.cleared.tryDecode (s.take n) copyBody).msg.version := version.symm
        simp only [line1, buf, List.take_append_drop]
        rw [kept]
        exact .searching searching
      · simp only [line1] at accepted ⊢
        exact .awaiting (awaiting.with_version _) accepted rfl

/-- **A later call on a request is like the first one**, and if it is pending too, so are the
ones after it. -/
theorem Resumes.tryDecode_eq (resumes : Resumes s n req mem) (le : n ≤ n') (copyBody : Bool) :
    settled (req.tryDecode (mem.take n') copyBody).outcome =
        settled (cleared.tryDecode (s.take n') copyBody).outcome ∧
      (∀ r, (req.tryDecode (mem.take n') copyBody).outcome = .ok r →
        (req.tryDecode (mem.take n') copyBody).msg =
          (cleared.tryDecode (s.take n') copyBody).msg) ∧
      (Pending (req.tryDecode (mem.take n') copyBody).outcome →
        Resumes s n' (req.tryDecode (mem.take n') copyBody).msg
          ((req.tryDecode (mem.take n') copyBody).buf ++ mem.drop n')) := by
  cases resumes with
  | @searching m searching =>
      have same : { cleared with toHttpMsg := m }.tryDecode (s.take n') copyBody =
          cleared.tryDecode (s.take n') copyBody := by
        simp only [tryDecode, searching.tryDecode_eq le copyBody]
        rfl
      rw [same]
      exact ⟨rfl, fun _ _ => rfl, resumes_of_pending⟩
  | @awaiting m mem k awaiting accepted version =>
      obtain ⟨outcome, msg, unseen, line1, buf⟩ := awaiting.tryDecode_eq le copyBody
      have later : { (start (HttpMsg.headOf s k).line1).2 with toHttpMsg := m }.tryDecode
          (mem.take n') copyBody = ⟨(m.tryDecode (mem.take n') copyBody).outcome,
            { (start (HttpMsg.headOf s k).line1).2 with
              toHttpMsg := (m.tryDecode (mem.take n') copyBody).msg }, [], mem.take n'⟩ := by
        simp only [tryDecode, unseen, buf]
        cases (m.tryDecode (mem.take n') copyBody).outcome <;> rfl
      rw [later]
      refine ⟨?_, ?_, fun pending => ?_⟩
      · cases returns : (HttpMsg.cleared.tryDecode (s.take n') copyBody).outcome with
        | error fault =>
            have throws : (cleared.tryDecode (s.take n') copyBody).outcome = .error fault :=
              tryDecode_throws returns
            rw [throws, ← returns]
            exact outcome
        | ok r =>
            have first : cleared.tryDecode (s.take n') copyBody = _ :=
              tryDecode_unstarted (m := .cleared) rfl returns
            rw [first, line1, accepted, if_pos rfl, ← returns]
            exact outcome
      · intro r answer
        rw [show (m.tryDecode (mem.take n') copyBody).outcome = .ok r from answer] at outcome
        obtain ⟨r', returns⟩ := settled_ok outcome.symm
        have first : cleared.tryDecode (s.take n') copyBody = _ :=
          tryDecode_unstarted (m := .cleared) rfl returns
        rw [first, line1, msg, version]
      · obtain ⟨same, awaits⟩ := awaiting.pending le pending
        simp only [same, List.take_append_drop]
        exact .awaiting awaits accepted version

end HttpRequest

/-! ## Responses -/

namespace HttpResponse

variable {s mem : Bytes} {n n' : ℕ} {resp : HttpResponse}

/-- A cleared response after its start line. -/
def start (line1 memory : Bytes) : HttpResponse :=
  if line1.length ≠ 0 then cleared.decodeLine line1 memory else cleared

/-- What stands behind a colon that follows the start line does not matter. -/
theorem start_colon {line1 lines : Bytes} (colon : 58 ∈ lines) (rest : Bytes) :
    start line1 (line1 ++ lines ++ rest) = start line1 (line1 ++ lines) := by
  unfold start
  split_ifs with there
  · have inside : line1.length - ((eatWord line1).2.dropWhile isSpace).length ≤ line1.length :=
      Nat.sub_le _ _
    have later : 58 ∈ (line1 ++ lines).drop
        (line1.length - ((eatWord line1).2.dropWhile isSpace).length) := by
      rw [List.drop_append_of_le_length inside]
      exact List.mem_append_right _ colon
    simp only [decodeLine]
    rw [List.drop_append_of_le_length (by rw [List.length_append]; omega),
      atoi_append later (by decide)]
  · rfl

/-- A call on a response whose start line has not been seen. -/
theorem tryDecode_unstarted {m : HttpMsg} {buf behind : Bytes} {copyBody : Bool} {r : Result}
    (version : m.version = cleared.version) (returns : (m.tryDecode buf copyBody).outcome = .ok r) :
    { cleared with toHttpMsg := m }.tryDecode buf behind copyBody =
      ⟨.ok r, { start (m.tryDecode buf copyBody).line1 ((m.tryDecode buf copyBody).buf ++ behind) with
          toHttpMsg := { (m.tryDecode buf copyBody).msg with
            version := (start (m.tryDecode buf copyBody).line1
              ((m.tryDecode buf copyBody).buf ++ behind)).version } },
        (m.tryDecode buf copyBody).line1, (m.tryDecode buf copyBody).buf⟩ := by
  have kept := (HttpMsg.version_tryDecode m buf copyBody).trans version
  by_cases there : (m.tryDecode buf copyBody).line1.length ≠ 0
  · simp only [tryDecode, returns, start, if_pos there]
    rfl
  · simp only [tryDecode, returns, start, if_neg there, ← kept]

theorem tryDecode_throws {m : HttpMsg} {buf behind : Bytes} {copyBody : Bool} {fault : DecodeFault}
    (throws : (m.tryDecode buf copyBody).outcome = .error fault) :
    ({ cleared with toHttpMsg := m }.tryDecode buf behind copyBody).outcome = .error fault := by
  simp only [tryDecode, throws]

/-- The response was called on prefixes of `s` of at most `n` bytes, and all calls were
pending; the memory holds what they have left of `s`. -/
inductive Resumes (s : Bytes) (n : ℕ) : HttpResponse → Bytes → Prop where
  | searching {m : HttpMsg} (searching : m.Searching s n) :
      Resumes s n { cleared with toHttpMsg := m } s
  | awaiting {m : HttpMsg} {mem : Bytes} {k : ℕ} (awaiting : m.Awaiting s n k mem)
      (version : m.version =
        (start (HttpMsg.headOf s k).line1 (HttpMsg.headOf s k).buf).version) :
      Resumes s n { start (HttpMsg.headOf s k).line1 (HttpMsg.headOf s k).buf with toHttpMsg := m } mem

/-- A response that waits for its body has read its status within the head. -/
theorem start_headOf {m : HttpMsg} {k : ℕ} (awaiting : m.Awaiting s n k mem) (le : n ≤ n')
    (copyBody : Bool) (behind : Bytes) :
    start (HttpMsg.headOf s k).line1
        ((HttpMsg.cleared.tryDecode (s.take n') copyBody).buf ++ behind) =
      start (HttpMsg.headOf s k).line1 (HttpMsg.headOf s k).buf := by
  obtain ⟨-, -, -, buf⟩ := (awaiting.headAt.mono le).tryDecode_eq awaiting.accepts copyBody
  obtain ⟨lines, shape, colon⟩ := awaiting.colon
  rw [buf, shape, List.append_assoc, start_colon colon]

/-- What the first call leaves. -/
theorem resumes_of_pending {copyBody : Bool} {behind : Bytes}
    (pending : Pending (cleared.tryDecode (s.take n) behind copyBody).outcome) :
    Resumes s n (cleared.tryDecode (s.take n) behind copyBody).msg
      ((cleared.tryDecode (s.take n) behind copyBody).buf ++ s.drop n) := by
  have version : (HttpMsg.cleared.tryDecode (s.take n) copyBody).msg.version = cleared.version :=
    HttpMsg.version_tryDecode _ _ _
  cases returns : (HttpMsg.cleared.tryDecode (s.take n) copyBody).outcome with
  | error fault =>
      have throws : (cleared.tryDecode (s.take n) behind copyBody).outcome = .error fault :=
        tryDecode_throws returns
      rw [throws] at pending
      simp [Pending] at pending
  | ok r =>
      have first : cleared.tryDecode (s.take n) behind copyBody = _ :=
        tryDecode_unstarted (m := .cleared) rfl returns
      rw [first] at pending ⊢
      rw [← returns] at pending
      rcases HttpMsg.pending_cases pending with ⟨searching, line1, buf⟩ | ⟨k, awaiting, line1⟩
      · have kept : (start [] (s.take n ++ behind)).version =
            (HttpMsg.cleared.tryDecode (s.take n) copyBody).msg.version := version.symm
        simp only [line1, buf, List.take_append_drop]
        rw [kept]
        exact .searching searching
      · simp only [line1, start_headOf awaiting le_rfl copyBody behind]
        exact .awaiting (awaiting.with_version _) rfl

/-- **A later call on a response is like the first one**, and if it is pending too, so are
the ones after it. -/
theorem Resumes.tryDecode_eq (resumes : Resumes s n resp mem) (le : n ≤ n') (behind : Bytes)
    (copyBody : Bool) :
    settled (resp.tryDecode (mem.take n') behind copyBody).outcome =
        settled (cleared.tryDecode (s.take n') behind copyBody).outcome ∧
      (∀ r, (resp.tryDecode (mem.take n') behind copyBody).outcome = .ok r →
        (resp.tryDecode (mem.take n') behind copyBody).msg =
          (cleared.tryDecode (s.take n') behind copyBody).msg) ∧
      (Pending (resp.tryDecode (mem.take n') behind copyBody).outcome →
        Resumes s n' (resp.tryDecode (mem.take n') behind copyBody).msg
          ((resp.tryDecode (mem.take n') behind copyBody).buf ++ mem.drop n')) := by
  cases resumes with
  | @searching m searching =>
      have same : { cleared with toHttpMsg := m }.tryDecode (s.take n') behind copyBody =
          cleared.tryDecode (s.take n') behind copyBody := by
        simp only [tryDecode, searching.tryDecode_eq le copyBody]
        rfl
      rw [same]
      exact ⟨rfl, fun _ _ => rfl, resumes_of_pending⟩
  | @awaiting m mem k awaiting version =>
      obtain ⟨outcome, msg, unseen, line1, buf⟩ := awaiting.tryDecode_eq le copyBody
      have later : { start (HttpMsg.headOf s k).line1 (HttpMsg.headOf s k).buf with
          toHttpMsg := m }.tryDecode (mem.take n') behind copyBody =
            ⟨(m.tryDecode (mem.take n') copyBody).outcome,
              { start (HttpMsg.headOf s k).line1 (HttpMsg.headOf s k).buf with
                toHttpMsg := (m.tryDecode (mem.take n') copyBody).msg }, [], mem.take n'⟩ := by
        simp only [tryDecode, unseen, buf]
        cases (m.tryDecode (mem.take n') copyBody).outcome <;> rfl
      rw [later]
      refine ⟨?_, ?_, fun pending => ?_⟩
      · cases returns : (HttpMsg.cleared.tryDecode (s.take n') copyBody).outcome with
        | error fault =>
            have throws : (cleared.tryDecode (s.take n') behind copyBody).outcome = .error fault :=
              tryDecode_throws returns
            rw [throws, ← returns]
            exact outcome
        | ok r =>
            have first : cleared.tryDecode (s.take n') behind copyBody = _ :=
              tryDecode_unstarted (m := .cleared) rfl returns
            rw [first, ← returns]
            exact outcome
      · intro r answer
        rw [show (m.tryDecode (mem.take n') copyBody).outcome = .ok r from answer] at outcome
        obtain ⟨r', returns⟩ := settled_ok outcome.symm
        have first : cleared.tryDecode (s.take n') behind copyBody = _ :=
          tryDecode_unstarted (m := .cleared) rfl returns
        rw [first, line1, msg, version, start_headOf awaiting le copyBody behind]
      · obtain ⟨same, awaits⟩ := awaiting.pending le pending
        simp only [same, List.take_append_drop]
        exact .awaiting awaits version

end HttpResponse

/-! ## Sequences of calls -/

/-- A decoder, on a message, the bytes of a buffer and the memory behind it. -/
abbrev Decoder (M : Type) := M → Bytes → Bytes → Decode M

def HttpRequest.decoder (copyBody : Bool) : Decoder HttpRequest :=
  fun req buf _ => req.tryDecode buf copyBody

def HttpResponse.decoder (copyBody : Bool) : Decoder HttpResponse :=
  fun resp buf behind => resp.tryDecode buf behind copyBody

/-- A message and the memory that it was decoded from, after a number of calls. -/
structure Fed (M : Type) where
  msg : M
  mem : Bytes
  outcomes : List (Except DecodeFault Result)

section

variable {M : Type} {decode : Decoder M} {cleared : M} {s : Bytes} {calls : List (ℕ × Bytes)}
  {last : ℕ × Bytes}

/-- Calls of a decoder on prefixes of a memory, one after the other. -/
def feed (decode : Decoder M) (msg : M) (mem : Bytes) : List (ℕ × Bytes) → Fed M
  | [] => ⟨msg, mem, []⟩
  | (size, behind) :: rest =>
      let d := decode msg (mem.take size) behind
      let fed := feed decode d.msg (d.buf ++ mem.drop size) rest
      ⟨fed.msg, fed.mem, d.outcome :: fed.outcomes⟩

/-- On every byte string, a call that follows pending calls on prefixes returns what it
returns on a cleared message, up to `Continue100`, and if it returns, it leaves the same
message. -/
def Incremental (decode : Decoder M) (cleared : M) : Prop :=
  ∀ (s : Bytes) (calls : List (ℕ × Bytes)) (last : ℕ × Bytes),
    ((calls ++ [last]).map Prod.fst).Pairwise (· ≤ ·) →
    (∀ outcome ∈ (feed decode cleared s calls).outcomes, Pending outcome) →
    let fed := feed decode cleared s calls
    let d := decode fed.msg (fed.mem.take last.1) last.2
    let once := decode cleared (s.take last.1) last.2
    settled d.outcome = settled once.outcome ∧ ∀ r, d.outcome = .ok r → d.msg = once.msg

/-- **A property of a message that makes a call like the first one, and that pending calls
keep, makes a decoder incremental.** -/
theorem Incremental.of_resumes (resumes : Bytes → ℕ → M → Bytes → Prop)
    (start : ∀ s, resumes s 0 cleared s)
    (step : ∀ {s mem : Bytes} {n n' : ℕ} {msg : M}, resumes s n msg mem → n ≤ n' → ∀ behind,
      settled (decode msg (mem.take n') behind).outcome =
          settled (decode cleared (s.take n') behind).outcome ∧
        (∀ r, (decode msg (mem.take n') behind).outcome = .ok r →
          (decode msg (mem.take n') behind).msg = (decode cleared (s.take n') behind).msg) ∧
        (Pending (decode msg (mem.take n') behind).outcome →
          resumes s n' (decode msg (mem.take n') behind).msg
            ((decode msg (mem.take n') behind).buf ++ mem.drop n'))) :
    Incremental decode cleared := by
  intro s calls last growing pending
  -- The calls are taken one by one, from any message that resumes.
  suffices general : ∀ (n : ℕ) (msg : M) (mem : Bytes), resumes s n msg mem →
      (∀ call ∈ calls ++ [last], n ≤ call.1) →
      (∀ outcome ∈ (feed decode msg mem calls).outcomes, Pending outcome) →
      settled (decode (feed decode msg mem calls).msg
          ((feed decode msg mem calls).mem.take last.1) last.2).outcome =
        settled (decode cleared (s.take last.1) last.2).outcome ∧
      ∀ r, (decode (feed decode msg mem calls).msg
          ((feed decode msg mem calls).mem.take last.1) last.2).outcome = .ok r →
        (decode (feed decode msg mem calls).msg
          ((feed decode msg mem calls).mem.take last.1) last.2).msg =
        (decode cleared (s.take last.1) last.2).msg from
    general 0 cleared s (start s) (fun _ _ => Nat.zero_le _) pending
  clear pending
  induction calls with
  | nil =>
      intro n msg mem resumed below _
      have this := step resumed (below last (by simp)) last.2
      exact ⟨this.1, this.2.1⟩
  | cons call rest ih =>
      intro n msg mem resumed below pending
      rw [List.cons_append, List.map_cons] at growing
      obtain ⟨later, growing⟩ := List.pairwise_cons.mp growing
      have next := (step resumed (below call (by simp)) call.2).2.2 (pending _ List.mem_cons_self)
      exact ih growing call.1 _ _ next (fun other member => later other.1 (List.mem_map_of_mem member))
        fun outcome member => pending outcome (List.mem_cons_of_mem _ member)

end

/-- **Incremental decoding agrees with one-shot decoding**, for requests and for responses,
with or without a copy of the body, whatever stands in the memory behind each prefix. -/
theorem tryDecode_incremental (copyBody : Bool) :
    Incremental (HttpRequest.decoder copyBody) .cleared ∧
      Incremental (HttpResponse.decoder copyBody) .cleared := by
  constructor
  · exact .of_resumes HttpRequest.Resumes (fun s => .searching (.start s))
      fun resumes le _ => resumes.tryDecode_eq le copyBody
  · exact .of_resumes HttpResponse.Resumes (fun s => .searching (.start s))
      fun resumes le behind => resumes.tryDecode_eq le behind copyBody

/-- A request with a body, which arrives cut in the empty line and in the body. -/
def arriving : Bytes := ascii "GET /a HTTP/1.1\r\nContent-Length: 3\r\n\r\nabc"

theorem tryDecode_incremental_arriving :
    (∀ outcome ∈ (feed (HttpRequest.decoder true) .cleared arriving [(37, []), (40, [])]).outcomes,
      Pending outcome) ∧
    settled ((feed (HttpRequest.decoder true) .cleared arriving [(37, []), (40, [])]).msg.tryDecode
      ((feed (HttpRequest.decoder true) .cleared arriving [(37, []), (40, [])]).mem.take 42)
      true).outcome = .ok .complete := by
  have pending : ∀ outcome ∈ (feed (HttpRequest.decoder true) .cleared arriving
      [(37, []), (40, [])]).outcomes, Pending outcome := by decide +kernel
  refine ⟨pending, ?_⟩
  have same := ((tryDecode_incremental true).1 arriving [(37, []), (40, [])] (42, []) (by decide)
    pending).1
  exact same.trans (by decide +kernel)

end Handy
