import Handy.Http.Errors

/-!
# Whole messages

Where a message ends in a byte string does not depend on how much of the string has arrived. The
decoder waits as long as the end is missing, and after that every call on a cleared message leaves
the same message, whatever follows it (`HttpMsg.Whole.tryDecode_eq`).
-/

set_option autoImplicit false

namespace Handy

namespace HttpMsg

variable {s : Bytes} {n k : ℕ}

/-- The number of bytes of the message whose head ends at `k`. -/
def sizeAt (s : Bytes) (k : ℕ) : ℕ := k + 4 + (headOf s k).msg.contentLen

/-- The string begins with a message whose head ends at `k`. -/
structure Whole (s : Bytes) (k : ℕ) : Prop where
  headAt : HeadAt s (k + 4) k
  accepts : (headOf s k).Accepts
  inside : sizeAt s k ≤ s.length
  sane : (headOf s k).msg.contentLen < 2 ^ 63 ∧ sizeAt s k < 2 ^ 64

/-- The message whose head ends at `k`. -/
def messageAt (s : Bytes) (k : ℕ) : HttpMsg := { (headOf s k).msg with
  body := (s.drop (k + 4)).take (headOf s k).msg.contentLen
  complete := true
  scanned := sizeAt s k }

theorem HeadAt.shrink (headAt : HeadAt s n k) : HeadAt s (k + 4) k := by
  have found := (scan_found_at headAt.found).2
  have bound := (scan_found headAt.found).2
  rw [Nat.sub_zero, List.take_take, Nat.min_eq_left (by rw [List.length_take] at bound; omega)]
    at found
  exact ⟨found, headAt.positive⟩

/-- The head of a message is decoded as a whole. -/
theorem Whole.body_eq (whole : Whole s k) (arrived : sizeAt s k ≤ n) :
    (headOf s k).msg.decodeBody ((headOf s k).buf ++ (s.take n).drop k) true =
      (.ok .complete, messageAt s k) := by
  have inside := whole.headAt.le.2
  have size : ((headOf s k).buf ++ (s.take n).drop k).length = min n s.length := by
    rw [List.length_append, length_headOf inside, List.length_drop, List.length_take]
    have le := whole.inside
    unfold sizeAt at le arrived
    omega
  have total : (k + 4 + (headOf s k).msg.contentLen) % 2 ^ 64 = sizeAt s k :=
    Nat.mod_eq_of_lt whole.sane.2
  have sum : addSize (headOf s k).msg.contentLen (headOf s k).msg.scanned = sizeAt s k := by
    rw [scanned_headOf whole.accepts, addSize, Nat.add_comm, total]
  have bytes : (((headOf s k).buf ++ (s.take n).drop k).drop (k + 4)).take
      (headOf s k).msg.contentLen = (s.drop (k + 4)).take (headOf s k).msg.contentLen := by
    rw [List.drop_append, length_headOf inside, List.drop_of_length_le
      (by rw [length_headOf inside]; omega), List.nil_append, List.drop_drop, Nat.add_sub_cancel_left,
      List.drop_take, List.take_take, Nat.min_eq_left (by unfold sizeAt at arrived; omega)]
  rw [decodeBody, if_pos (by rw [sum, size]; exact le_min arrived whole.inside),
    if_neg fun throws => not_le.mpr whole.sane.1 throws.2, takeBody, if_pos rfl, scanned_headOf whole.accepts, bytes,
    Prod.mk.injEq]
  refine ⟨rfl, ?_⟩
  simp only [addSize, total]
  rfl

/-- **Once a message has arrived, a call on a cleared message completes it.** -/
theorem Whole.tryDecode_eq (whole : Whole s k) (arrived : sizeAt s k ≤ n) :
    cleared.tryDecode (s.take n) true = ⟨.ok .complete, messageAt s k, (headOf s k).line1,
      (headOf s k).buf ++ (s.take n).drop k⟩ := by
  have headAt := whole.headAt.mono (show k + 4 ≤ n by unfold sizeAt at arrived; omega)
  obtain ⟨outcome, msg, line1, buf⟩ := headAt.tryDecode_eq whole.accepts true
  have left : (cleared.tryDecode (s.take n) true).msg = messageAt s k := by
    rw [msg, whole.body_eq arrived]
  have complete : (cleared.tryDecode (s.take n) true).outcome = .ok .complete := by
    rw [whole.body_eq arrived] at outcome
    cases returns : (cleared.tryDecode (s.take n) true).outcome with
    | error fault =>
        rw [returns] at outcome
        cases outcome
    | ok r =>
        rw [returns] at outcome
        cases r <;> first | rfl | cases outcome
  rw [← complete, ← left, ← line1, ← buf]

/-- **Before that it waits.** -/
theorem Whole.pending (whole : Whole s k) (missing : n < sizeAt s k) :
    Pending (cleared.tryDecode (s.take n) true).outcome ∧
      ((cleared.tryDecode (s.take n) true).line1 = [] ∨
        (cleared.tryDecode (s.take n) true).line1 = (headOf s k).line1) := by
  rcases missing_or_headAt s n with ⟨j, found, searched, none⟩ | ⟨j, headAt⟩
  · rw [(tryDecode_missing searched none true).1]
    exact ⟨.inl rfl, .inl rfl⟩
  · have same : j = k := by
      have first := (headAt.mono (le_max_left n (k + 4))).found
      rw [(whole.headAt.mono (le_max_right n (k + 4))).found] at first
      exact (Prod.mk.inj first).1.symm
    subst same
    obtain ⟨outcome, msg, line1, buf⟩ := headAt.tryDecode_eq whole.accepts true
    refine ⟨?_, .inr line1⟩
    have short : ¬ addSize (headOf s j).msg.contentLen (headOf s j).msg.scanned ≤
        ((headOf s j).buf ++ (s.take n).drop j).length := by
      rw [scanned_headOf whole.accepts, addSize, Nat.add_comm, List.length_append,
        length_headOf headAt.le.2, List.length_drop, List.length_take]
      have bound := whole.sane.2
      unfold sizeAt at missing bound
      rw [Nat.mod_eq_of_lt bound]
      have front := headAt.le.1
      omega
    rw [pending_iff, outcome, decodeBody, if_neg short]
    rfl

/-- **A message that a call completes stands at the front of the string.** -/
theorem whole_of_complete (small : (s.take n).length < 2 ^ 63)
    (complete : (cleared.tryDecode (s.take n) true).outcome = .ok .complete) :
    ∃ k, Whole s k ∧ sizeAt s k ≤ n := by
  rcases missing_or_headAt s n with ⟨j, found, searched, none⟩ | ⟨k, headAt⟩
  · rw [(tryDecode_missing searched none true).1] at complete
    cases complete
  · have accepts : (headOf s k).Accepts := by
      by_contra refused
      rw [headAt.tryDecode_error refused true] at complete
      cases complete
    obtain ⟨outcome, -, -, -⟩ := headAt.tryDecode_eq accepts true
    rw [complete, decodeBody] at outcome
    have long := headAt.length_buf
    have size : ((headOf s k).buf ++ (s.take n).drop k).length = (s.take n).length := by
      rw [List.length_append, length_headOf headAt.le.2, List.length_drop, List.length_take]
      have front := headAt.le
      omega
    rw [size] at long outcome
    by_cases arrived : addSize (headOf s k).msg.contentLen (headOf s k).msg.scanned ≤
        (s.take n).length
    swap
    · rw [if_neg arrived] at outcome
      cases outcome
    by_cases large : 2 ^ 63 ≤ (headOf s k).msg.contentLen
    · rw [if_pos arrived, if_pos ⟨rfl, large⟩] at outcome
      cases outcome
    have wraps : (headOf s k).msg.contentLen + (k + 4) < 2 ^ 64 := by omega
    rw [scanned_headOf accepts, addSize, Nat.mod_eq_of_lt wraps, List.length_take] at arrived
    refine ⟨k, ⟨headAt.shrink, accepts, ?_, not_le.mp large, ?_⟩, ?_⟩ <;> unfold sizeAt <;> omega

/-- What follows a message does not matter. -/
theorem Whole.append (whole : Whole s k) (rest : Bytes) : Whole (s ++ rest) k ∧
    sizeAt (s ++ rest) k = sizeAt s k ∧ headOf (s ++ rest) k = headOf s k := by
  have inside := whole.inside
  have front : k + 4 ≤ s.length := by unfold sizeAt at inside; omega
  have head : headOf (s ++ rest) k = headOf s k := by
    rw [headOf, headOf, List.take_append_of_le_length (by omega)]
  have size : sizeAt (s ++ rest) k = sizeAt s k := by rw [sizeAt, sizeAt, head]
  refine ⟨⟨⟨?_, whole.headAt.positive⟩, ?_, ?_, ?_⟩, size, head⟩
  · rw [List.take_append_of_le_length front]
    exact whole.headAt.found
  · rw [head]
    exact whole.accepts
  · rw [size, List.length_append]
    omega
  · rw [head, size]
    exact whole.sane

/-! ## What follows a message in the buffer -/

variable {m : HttpMsg} {mem : Bytes} {n' : ℕ}

/-- Behind the head, the buffer is as it was received. -/
theorem drop_headOf {j : ℕ} (inside : k ≤ s.length) (behind : k ≤ j) :
    ((headOf s k).buf ++ (s.take n).drop k).drop j = (s.take n).drop j := by
  rw [List.drop_append, List.drop_of_length_le (by rw [length_headOf inside]; exact behind),
    List.nil_append, length_headOf inside, List.drop_drop, Nat.add_sub_cancel' behind]

theorem length_headOf_append (inside : k ≤ n) (stored : k ≤ s.length) :
    ((headOf s k).buf ++ (s.take n).drop k).length = (s.take n).length := by
  rw [List.length_append, length_headOf stored, List.length_drop, List.length_take]
  omega

/-- Decoding keeps the number of bytes. -/
theorem length_buf (m : HttpMsg) (buf : Bytes) (copyBody : Bool) :
    (m.tryDecode buf copyBody).buf.length = buf.length := by
  have head : (m.decodeHead buf).buf.length = buf.length := by
    unfold decodeHead
    rcases scan (buf.drop m.scanned) m.scanned with ⟨scanned, found⟩
    by_cases empty : (if found then buf.take scanned else []) = []
    · simp only [if_pos empty]
    · simp only [if_neg empty]
      cases found with
      | false => exact absurd rfl empty
      | true =>
          have split := congrArg List.length (List.take_append_drop scanned buf)
          rw [List.length_append] at split
          have read : ∀ (m : HttpMsg) (req rest : Bytes),
              (m.readHead req rest).buf.length = req.length + rest.length := by
            intro m req rest
            have whole : ((eatLine req).1 ++ (decodeLines (eatLine req).2.length m.headers
                (eatLine req).2).buf ++ rest).length = req.length + rest.length := by
              rw [List.length_append, List.length_append, length_decodeLines, length_eatLine]
            simp only [readHead]
            split_ifs <;> exact whole
          simp only [if_true, read]
          exact split
  simp only [tryDecode]
  split_ifs
  · rfl
  · cases (m.decodeHead buf).answer with
    | some r => exact head
    | none => exact head
  · rfl

theorem Searching.buf_eq (searching : Searching s n m) (le : n ≤ n') (whole : Whole s k)
    (arrived : sizeAt s k ≤ n') : (m.tryDecode (s.take n') true).buf =
      (headOf s k).buf ++ (s.take n').drop k := by
  rw [searching.tryDecode_eq le, whole.tryDecode_eq arrived]

theorem Awaiting.buf_eq {j : ℕ} (awaiting : Awaiting s n j m mem) (le : n ≤ n') (whole : Whole s k)
    (arrived : sizeAt s k ≤ n') : (m.tryDecode (mem.take n') true).buf =
      (headOf s k).buf ++ (s.take n').drop k := by
  obtain ⟨-, -, -, -, buf⟩ := awaiting.tryDecode_eq le true
  have same : j = k := by
    have front : k + 4 ≤ n' := by unfold sizeAt at arrived; omega
    have found := (whole.headAt.mono front).found
    rw [(awaiting.headAt.mono le).found] at found
    exact (Prod.mk.inj found).1
  subst same
  exact buf.trans (awaiting.take_memory le)

theorem Awaiting.length_eq (awaiting : Awaiting s n k m mem) : mem.length = s.length := by
  have inside := awaiting.headAt.le.2
  rw [awaiting.memory, List.length_append, length_headOf inside, List.length_drop]
  omega

end HttpMsg

/-! ## Requests -/

namespace HttpRequest

variable {bytes s mem : Bytes} {n n' : ℕ} {req : HttpRequest}

/-- The bytes of one request: it is complete when the last of them has arrived. -/
structure IsRequest (bytes : Bytes) : Prop where
  complete : (cleared.tryDecode bytes true).outcome = .ok .complete
  scanned : (cleared.tryDecode bytes true).msg.scanned = bytes.length

theorem IsRequest.pos (isRequest : IsRequest bytes) : 0 < bytes.length := by
  refine List.length_pos_iff.mpr fun empty => ?_
  have complete := isRequest.complete
  rw [empty] at complete
  exact absurd complete (by decide)

/-- The request that some bytes stand for. -/
def read (bytes : Bytes) : HttpRequest := (cleared.tryDecode bytes true).msg

/-- A request is complete when the message is and the start line is accepted. -/
theorem complete_iff (buf : Bytes) : (cleared.tryDecode buf true).outcome = .ok .complete ↔
    (HttpMsg.cleared.tryDecode buf true).outcome = .ok .complete ∧
      (start (HttpMsg.cleared.tryDecode buf true).line1).1 = true := by
  cases returns : (HttpMsg.cleared.tryDecode buf true).outcome with
  | error fault =>
      have throws : (cleared.tryDecode buf true).outcome = .error fault := tryDecode_throws returns
      simp [throws]
  | ok r =>
      have first : cleared.tryDecode buf true = _ := tryDecode_unstarted (m := .cleared) rfl returns
      rw [first]
      by_cases accepted : (start (HttpMsg.cleared.tryDecode buf true).line1).1 = true
      · simp [accepted]
      · simp [accepted]

theorem IsRequest.whole (isRequest : IsRequest bytes) (short : bytes.length < 2 ^ 63) :
    ∃ k, HttpMsg.Whole bytes k ∧ HttpMsg.sizeAt bytes k = bytes.length ∧
      (start (HttpMsg.headOf bytes k).line1).1 = true := by
  obtain ⟨complete, accepted⟩ := (complete_iff bytes).mp isRequest.complete
  have all : bytes.take bytes.length = bytes := List.take_length
  obtain ⟨k, whole, arrived⟩ := HttpMsg.whole_of_complete (by rwa [all]) (by rwa [all])
  have call := whole.tryDecode_eq arrived
  rw [all] at call
  obtain ⟨⟨version, msg⟩, -⟩ := tryDecode_leaves cleared bytes true
  have fresh : cleared.toHttpMsg.tryDecode bytes true = _ := call
  have scanned := isRequest.scanned
  rw [msg, fresh] at scanned
  rw [call] at accepted
  exact ⟨k, whole, scanned, accepted⟩

/-- **A request is complete once its last byte has arrived**, and it does not matter what
follows. -/
theorem IsRequest.tryDecode_eq (isRequest : IsRequest bytes) (rest : Bytes)
    (short : bytes.length < 2 ^ 63) (arrived : bytes.length ≤ n) :
    (cleared.tryDecode ((bytes ++ rest).take n) true).outcome = .ok .complete ∧
      (cleared.tryDecode ((bytes ++ rest).take n) true).msg = read bytes := by
  obtain ⟨k, whole, size, accepted⟩ := isRequest.whole short
  obtain ⟨more, same, head⟩ := whole.append rest
  have here := whole.tryDecode_eq size.le
  rw [List.take_length] at here
  have there := more.tryDecode_eq (n := n) (by rw [same, size]; exact arrived)
  have message : HttpMsg.messageAt (bytes ++ rest) k = HttpMsg.messageAt bytes k := by
    have inside := whole.inside
    have body : ((bytes ++ rest).drop (k + 4)).take (HttpMsg.headOf bytes k).msg.contentLen =
        (bytes.drop (k + 4)).take (HttpMsg.headOf bytes k).msg.contentLen := by
      unfold HttpMsg.sizeAt at inside
      rw [List.drop_append_of_le_length (by omega), List.take_append_of_le_length
        (by rw [List.length_drop]; omega)]
    rw [HttpMsg.messageAt, HttpMsg.messageAt, head, same, body]
  have first : cleared.tryDecode bytes true = _ :=
    tryDecode_unstarted (m := .cleared) rfl (congrArg Decode.outcome here)
  have second : cleared.tryDecode ((bytes ++ rest).take n) true = _ :=
    tryDecode_unstarted (m := .cleared) rfl (congrArg Decode.outcome there)
  rw [second, read, first, here, there, head, message, accepted]
  exact ⟨rfl, rfl⟩

/-- **Before that it is not.** -/
theorem IsRequest.pending (isRequest : IsRequest bytes) (rest : Bytes)
    (short : bytes.length < 2 ^ 63) (missing : n < bytes.length) :
    Pending (cleared.tryDecode ((bytes ++ rest).take n) true).outcome := by
  obtain ⟨k, whole, size, accepted⟩ := isRequest.whole short
  obtain ⟨more, same, head⟩ := whole.append rest
  obtain ⟨pending, line1⟩ := more.pending (n := n) (by rw [same, size]; exact missing)
  rw [head] at line1
  have passes : (start (HttpMsg.cleared.tryDecode ((bytes ++ rest).take n) true).line1).1 = true := by
    rcases line1 with none | line1
    · rw [none]
      rfl
    · rw [line1]
      exact accepted
  rcases pending with returns | returns
  all_goals
    have call : cleared.tryDecode ((bytes ++ rest).take n) true = _ :=
      tryDecode_unstarted (m := .cleared) rfl returns
    rw [call, passes]
  · exact .inl rfl
  · exact .inr rfl

/-- What follows a request is left in the buffer as it is. -/
theorem Resumes.buf_eq {k : ℕ} (resumes : Resumes s n req mem) (le : n ≤ n')
    (whole : HttpMsg.Whole s k) (arrived : HttpMsg.sizeAt s k ≤ n') :
    (req.tryDecode (mem.take n') true).buf = (HttpMsg.headOf s k).buf ++ (s.take n').drop k := by
  rw [(tryDecode_leaves req (mem.take n') true).2]
  cases resumes with
  | searching searching => exact searching.buf_eq le whole arrived
  | awaiting awaiting accepted version => exact awaiting.buf_eq le whole arrived

theorem Resumes.length_eq (resumes : Resumes s n req mem) : mem.length = s.length := by
  cases resumes with
  | searching searching => rfl
  | awaiting awaiting accepted version => exact awaiting.length_eq

end HttpRequest

/-! ## Responses -/

namespace HttpResponse

variable {s mem buf behind : Bytes} {n n' k : ℕ} {resp : HttpResponse}

/-- What a call leaves of the message below and of the buffer. -/
theorem tryDecode_leaves (resp : HttpResponse) (buf behind : Bytes) (copyBody : Bool) :
    (resp.tryDecode buf behind copyBody).outcome = (resp.toHttpMsg.tryDecode buf copyBody).outcome ∧
      (∃ version, (resp.tryDecode buf behind copyBody).msg.toHttpMsg =
        { (resp.toHttpMsg.tryDecode buf copyBody).msg with version := version }) ∧
      (resp.tryDecode buf behind copyBody).buf = (resp.toHttpMsg.tryDecode buf copyBody).buf := by
  cases returns : (resp.toHttpMsg.tryDecode buf copyBody).outcome with
  | error fault =>
      simp only [tryDecode, returns]
      exact ⟨trivial, ⟨_, rfl⟩, trivial⟩
  | ok r =>
      by_cases there : (resp.toHttpMsg.tryDecode buf copyBody).line1.length ≠ 0
      · simp only [tryDecode, returns, if_pos there]
        exact ⟨trivial, ⟨_, rfl⟩, trivial⟩
      · simp only [tryDecode, returns, if_neg there]
        exact ⟨trivial, ⟨_, rfl⟩, trivial⟩

theorem length_buf (resp : HttpResponse) (buf behind : Bytes) (copyBody : Bool) :
    (resp.tryDecode buf behind copyBody).buf.length = buf.length := by
  rw [(tryDecode_leaves resp buf behind copyBody).2.2]
  exact HttpMsg.length_buf _ _ _

/-- A response that is complete stays as it is. -/
theorem tryDecode_complete (complete : resp.complete = true) (buf behind : Bytes) :
    resp.tryDecode buf behind true = ⟨.ok .complete, resp, [], buf⟩ := by
  have below : resp.toHttpMsg.tryDecode buf true = ⟨.ok .complete, resp.toHttpMsg, [], buf⟩ := by
    rw [HttpMsg.tryDecode, if_pos complete]
  simp only [tryDecode, below]
  rfl

theorem Resumes.buf_eq (resumes : Resumes s n resp mem) (le : n ≤ n') (whole : HttpMsg.Whole s k)
    (arrived : HttpMsg.sizeAt s k ≤ n') (behind : Bytes) :
    (resp.tryDecode (mem.take n') behind true).buf =
      (HttpMsg.headOf s k).buf ++ (s.take n').drop k := by
  rw [(tryDecode_leaves resp (mem.take n') behind true).2.2]
  cases resumes with
  | searching searching => exact searching.buf_eq le whole arrived
  | awaiting awaiting version => exact awaiting.buf_eq le whole arrived

theorem Resumes.length_eq (resumes : Resumes s n resp mem) : mem.length = s.length := by
  cases resumes with
  | searching searching => rfl
  | awaiting awaiting version => exact awaiting.length_eq

/-- A response of which nothing has been scanned is cleared. -/
theorem Resumes.cleared_of_scanned (resumes : Resumes s n resp mem) (none : resp.scanned = 0) :
    resp = cleared ∧ mem = s := by
  cases resumes with
  | @searching m searching =>
      have fresh := searching.fresh
      have zero : m.scanned = 0 := none
      rw [zero] at fresh
      rw [fresh]
      exact ⟨rfl, rfl⟩
  | @awaiting m mem k awaiting version =>
      have scanned : m.scanned = k + 4 := by
        rw [awaiting.msg]
        exact HttpMsg.scanned_headOf awaiting.accepts
      have zero : m.scanned = 0 := none
      omega

/-- The decoder has read the bytes of a response, and nothing that follows them but the memory
in which it looks for the status. -/
theorem read_eq (whole : HttpMsg.Whole s k) (arrived : HttpMsg.sizeAt s k ≤ n) (behind : Bytes) :
    (cleared.tryDecode (s.take n) behind true).msg =
      (cleared.tryDecode (s.take (HttpMsg.sizeAt s k))
        ((s.take n).drop (HttpMsg.sizeAt s k) ++ behind) true).msg := by
  have here := whole.tryDecode_eq arrived
  have there := whole.tryDecode_eq (le_refl (HttpMsg.sizeAt s k))
  have first : cleared.tryDecode (s.take n) behind true = _ :=
    tryDecode_unstarted (m := .cleared) rfl (congrArg Decode.outcome here)
  have second : cleared.tryDecode (s.take (HttpMsg.sizeAt s k))
      ((s.take n).drop (HttpMsg.sizeAt s k) ++ behind) true = _ :=
    tryDecode_unstarted (m := .cleared) rfl (congrArg Decode.outcome there)
  have inside := whole.inside
  have front : k ≤ (s.take (HttpMsg.sizeAt s k)).length := by
    rw [List.length_take]
    unfold HttpMsg.sizeAt at inside ⊢
    omega
  have memory : (s.take n).drop k =
      (s.take (HttpMsg.sizeAt s k)).drop k ++ (s.take n).drop (HttpMsg.sizeAt s k) := by
    rw [← List.drop_append_of_le_length front]
    congr 1
    have split := List.take_append_drop (HttpMsg.sizeAt s k) (s.take n)
    rw [List.take_take, Nat.min_eq_left arrived] at split
    exact split.symm
  rw [first, second, here, there, memory]
  simp only [List.append_assoc]

/-- **A response that is complete stands at the front of the string.** -/
theorem whole_of_complete (small : (s.take n).length < 2 ^ 63)
    (complete : (cleared.tryDecode (s.take n) behind true).outcome = .ok .complete) :
    ∃ k, HttpMsg.Whole s k ∧ HttpMsg.sizeAt s k ≤ n :=
  HttpMsg.whole_of_complete small
    ((tryDecode_leaves cleared (s.take n) behind true).1.symm.trans complete)

/-- **A call that completes a response** leaves the response of the bytes at the front of the
string, and behind them the string as it is. -/
theorem Resumes.completes (resumes : Resumes s n resp mem) (le : n ≤ n') (behind : Bytes)
    (small : (s.take n').length < 2 ^ 63)
    (returns : (resp.tryDecode (mem.take n') behind true).outcome = .ok .complete) :
    ∃ k, HttpMsg.Whole s k ∧ HttpMsg.sizeAt s k ≤ n' ∧
      (resp.tryDecode (mem.take n') behind true).msg.complete = true ∧
      (resp.tryDecode (mem.take n') behind true).msg.scanned = HttpMsg.sizeAt s k ∧
      (resp.tryDecode (mem.take n') behind true).buf.drop (HttpMsg.sizeAt s k) =
        (s.take n').drop (HttpMsg.sizeAt s k) ∧
      ∃ after, (resp.tryDecode (mem.take n') behind true).msg =
        (cleared.tryDecode (s.take (HttpMsg.sizeAt s k)) after true).msg := by
  obtain ⟨outcome, message, -⟩ := resumes.tryDecode_eq le behind true
  rw [returns] at outcome
  obtain ⟨k, whole, arrived⟩ := whole_of_complete small (settled_complete outcome.symm)
  have same := message .complete returns
  -- What a cleared message makes of the same bytes.
  obtain ⟨-, ⟨version, below⟩, -⟩ := tryDecode_leaves cleared (s.take n') behind true
  have fresh : cleared.toHttpMsg.tryDecode (s.take n') true = _ := whole.tryDecode_eq arrived
  rw [fresh, ← same] at below
  have front : k ≤ HttpMsg.sizeAt s k := by
    unfold HttpMsg.sizeAt
    omega
  refine ⟨k, whole, arrived, congrArg HttpMsg.complete below, congrArg HttpMsg.scanned below, ?_,
    _, same.trans (read_eq whole arrived behind)⟩
  rw [resumes.buf_eq le whole arrived, HttpMsg.drop_headOf (front.trans whole.inside) front]

/-! ## Rejected responses -/

/-- A response whose head has a bad line is rejected again and again. -/
theorem tryDecode_broken (broken : resp.toHttpMsg.Broken n mem) (behind : Bytes) :
    (resp.tryDecode (mem.take n) behind true).outcome = .ok .error ∧
      (resp.tryDecode (mem.take n) behind true).msg.toHttpMsg.Broken n
        ((resp.tryDecode (mem.take n) behind true).buf ++ mem.drop n) := by
  obtain ⟨headers, same⟩ := broken.tryDecode_eq true
  obtain ⟨outcome, ⟨version, msg⟩, buf⟩ := tryDecode_leaves resp (mem.take n) behind true
  refine ⟨outcome.trans (congrArg Decode.outcome same), ?_⟩
  rw [msg, buf, same]
  exact broken.again headers _ version

/-- A response that is rejected has a bad line. -/
theorem Resumes.broken (resumes : Resumes s n resp mem) (le : n ≤ n')
    (fails : (resp.tryDecode (mem.take n') behind true).outcome = .ok .error) :
    (resp.tryDecode (mem.take n') behind true).msg.toHttpMsg.Broken n'
      ((resp.tryDecode (mem.take n') behind true).buf ++ mem.drop n') := by
  cases resumes with
  | @awaiting m mem k awaiting version =>
      have past : m.Past := .inr (by rw [awaiting.msg]; exact awaiting.length)
      have below := (tryDecode_leaves _ (mem.take n') behind true).1.symm.trans fails
      exact absurd below (past.tryDecode_spec _ _).1
  | @searching m searching =>
      obtain ⟨outcome, ⟨version, msg⟩, buf⟩ :=
        tryDecode_leaves { cleared with toHttpMsg := m } (s.take n') behind true
      have below : (HttpMsg.cleared.tryDecode (s.take n') true).outcome = .ok .error := by
        rw [← searching.tryDecode_eq le]
        exact outcome.symm.trans fails
      rcases HttpMsg.missing_or_headAt s n' with ⟨k, found, searched, missing⟩ | ⟨k, headAt⟩
      · rw [(HttpMsg.tryDecode_missing searched missing true).1] at below
        cases below
      · have accepts : ¬ (HttpMsg.headOf s k).Accepts := fun accepts =>
          (headAt.past accepts true).1 below
        have refused := not_not.mp (mt (HttpMsg.accepts_iff s k).mpr accepts)
        obtain ⟨headers, call⟩ := headAt.tryDecode_refused refused true
        have same : m.tryDecode (s.take n') true = _ := (searching.tryDecode_eq le true).trans call
        rw [msg, buf, same]
        exact (headAt.broken refused).again headers _ version

end HttpResponse

end Handy
