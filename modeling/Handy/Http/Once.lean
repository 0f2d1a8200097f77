import Handy.Http.Lookup

/-!
# One call on a cleared message

What a call on a cleared message comes to, in terms of the buffer alone. The head ends at the
first empty line; if that stands at the very start of the buffer, there is no head. An
accepted head tells the number of bytes of the body, as `atoi` reads it. The number may be
negative, and it is added to the length of the head modulo `2 ^ 64` (`HttpMsg.once_spec`).
-/

set_option autoImplicit false

namespace Handy

/-! ## The first empty line -/

/-- Two line ends. -/
def emptyLine : Bytes := [13, 10, 13, 10]

/-- The first empty line begins at `k`. -/
structure FirstEmptyLine (s : Bytes) (k : ℕ) : Prop where
  here : emptyLine <+: s.drop k
  first : ∀ j < k, ¬ emptyLine <+: s.drop j

theorem FirstEmptyLine.unique {s : Bytes} {j k : ℕ} (one : FirstEmptyLine s j)
    (other : FirstEmptyLine s k) : j = k := by
  rcases lt_trichotomy j k with before | same | after
  · exact absurd one.here (other.first j before)
  · exact same
  · exact absurd other.here (one.first k after)

theorem emptyLine_prefix_cons (c : UInt8) (rest : Bytes) : emptyLine <+: c :: rest ↔
    ¬ rest.length < 3 ∧ c = 13 ∧ rest.take 3 = [10, 13, 10] := by
  rw [emptyLine, List.cons_prefix_cons, List.prefix_iff_eq_take]
  simp only [List.length_cons, List.length_nil]
  constructor
  · rintro ⟨rfl, front⟩
    refine ⟨fun short => ?_, rfl, front.symm⟩
    have size := congrArg List.length front
    rw [List.length_take] at size
    simp only [List.length_cons, List.length_nil] at size
    omega
  · rintro ⟨-, rfl, front⟩
    exact ⟨rfl, front.symm⟩

theorem firstEmptyLine_cons {c : UInt8} {rest : Bytes} {k : ℕ}
    (elsewhere : ¬ emptyLine <+: c :: rest) :
    FirstEmptyLine (c :: rest) (k + 1) ↔ FirstEmptyLine rest k := by
  constructor
  · rintro ⟨here, first⟩
    refine ⟨by simpa using here, fun j before => ?_⟩
    simpa using first (j + 1) (Nat.succ_lt_succ before)
  · rintro ⟨here, first⟩
    refine ⟨by simpa using here, fun j before => ?_⟩
    cases j with
    | zero => simpa using elsewhere
    | succ j => simpa using first j (Nat.lt_of_succ_lt_succ before)

namespace HttpMsg

/-- A search that does not end at its first byte goes on behind it. -/
theorem scan_elsewhere {c : UInt8} {rest : Bytes} (elsewhere : ¬ emptyLine <+: c :: rest) {i k : ℕ} :
    scan (c :: rest) i = (k, true) ↔ scan rest (i + 1) = (k, true) := by
  rw [scan]
  split_ifs with short here
  · have missing : ¬ scan rest (i + 1) = (k, true) := fun found => by
      have long := (scan_found found).2
      omega
    simp [missing]
  · exact absurd ((emptyLine_prefix_cons c rest).mpr ⟨short, here⟩) elsewhere
  · rfl

/-- **The search finds the first empty line.** -/
theorem scan_iff (s : Bytes) (i k : ℕ) : scan s i = (i + k, true) ↔ FirstEmptyLine s k := by
  induction s generalizing i k with
  | nil =>
      have missing : ¬ FirstEmptyLine [] k := fun found => absurd found.here (by simp [emptyLine])
      simp [scan, missing]
  | cons c rest ih =>
      by_cases here : emptyLine <+: c :: rest
      · obtain ⟨long, front⟩ := (emptyLine_prefix_cons c rest).mp here
        have start : FirstEmptyLine (c :: rest) 0 :=
          ⟨here, fun j before => absurd before (Nat.not_lt_zero j)⟩
        rw [scan, if_neg long, if_pos front]
        constructor
        · intro found
          have zero : k = 0 := by simpa using found
          rw [zero]
          exact start
        · intro found
          rw [found.unique start, Nat.add_zero]
      · rw [scan_elsewhere here]
        cases k with
        | zero =>
            constructor
            · intro found
              have later := (scan_found found).1
              omega
            · intro found
              exact absurd found.here here
        | succ k =>
            rw [firstEmptyLine_cons here, ← ih (i + 1) k, show i + (k + 1) = i + 1 + k by omega]

theorem headAt_iff (buf : Bytes) (k : ℕ) :
    HeadAt buf buf.length k ↔ FirstEmptyLine buf k ∧ 0 < k := by
  have found := scan_iff buf 0 k
  rw [Nat.zero_add] at found
  constructor
  · intro headAt
    have there := headAt.found
    rw [List.take_length] at there
    exact ⟨found.mp there, headAt.positive⟩
  · rintro ⟨first, positive⟩
    refine ⟨?_, positive⟩
    rw [List.take_length]
    exact found.mpr first

/-! ## The length of the body -/

/-- The headers that the loop over the lines of a head stores. -/
def headersOf (req : Bytes) : StringMap :=
  (decodeLines (eatLine req).2.length .empty (eatLine req).2).headers

/-- The content length of a head, as it stands there. -/
def contentLength (req : Bytes) : Bytes :=
  getValueFromMap (headersOf req) (ascii "content-length")

/-- The length of the body, as the decoder reads it from the head that ends at `k`. -/
def bodyLength (buf : Bytes) (k : ℕ) : ℤ := atoi (contentLength (buf.take k))

theorem atoi_bounds (s : Bytes) : -(2 ^ 31) ≤ atoi s ∧ atoi s < 2 ^ 31 := by
  have lower := Int.le_bmod (x := strtol s) (m := 2 ^ 32) (by norm_num)
  have upper := Int.bmod_lt (x := strtol s) (m := 2 ^ 32) (by norm_num)
  rw [atoi, toInt32]
  constructor <;> push_cast at lower upper ⊢ <;> omega

theorem headOf_msg {buf : Bytes} {k : ℕ} (accepts : (headOf buf k).Accepts) :
    (headOf buf k).msg.scanned = k + 4 ∧
      (headOf buf k).msg.contentLen = toSize (bodyLength buf k) := by
  refine ⟨scanned_headOf accepts, ?_⟩
  rw [headOf, readHead_accepts accepts]
  rfl

/-- The size that the buffer must have for the body to be taken. -/
theorem addSize_bodyLength (buf : Bytes) (k : ℕ) :
    (addSize (toSize (bodyLength buf k)) (k + 4) : ℤ) = (k + 4 + bodyLength buf k) % 2 ^ 64 := by
  obtain ⟨lower, upper⟩ := atoi_bounds (contentLength (buf.take k))
  rw [addSize, toSize, bodyLength]
  generalize atoi (contentLength (buf.take k)) = number at lower upper ⊢
  omega

/-! ## The call -/

/-- Only a call that completes the message makes a slice. -/
theorem stray_decodeBody {m : HttpMsg} {buf : Bytes} {copyBody : Bool}
    (incomplete : (m.decodeBody buf copyBody).1 ≠ .ok .complete) :
    (m.decodeBody buf copyBody).2.stray = m.stray := by
  unfold decodeBody at incomplete ⊢
  split_ifs at incomplete ⊢
  · rfl
  · exact absurd rfl incomplete
  · rfl

theorem stray_decodeHead (m : HttpMsg) (buf : Bytes) : (m.decodeHead buf).msg.stray = m.stray := by
  simp only [decodeHead, readHead, endHead]
  split_ifs <;> rfl

theorem stray_tryDecode {m : HttpMsg} {buf : Bytes} {copyBody : Bool}
    (incomplete : (m.tryDecode buf copyBody).outcome ≠ .ok .complete) :
    (m.tryDecode buf copyBody).msg.stray = m.stray := by
  unfold tryDecode at incomplete ⊢
  split_ifs at incomplete ⊢
  · rfl
  · cases answer : (m.decodeHead buf).answer with
    | some r => simpa only [answer] using stray_decodeHead m buf
    | none =>
        simp only [answer] at incomplete ⊢
        rw [stray_decodeBody incomplete, stray_decodeHead]
  · exact stray_decodeBody incomplete

/-- Apart from `Continue100`, an outcome is told from its settled form. -/
theorem eq_of_settled {one other : Except DecodeFault Result} (same : settled one = settled other)
    (quiet : one ≠ .ok .continue100) (silent : other ≠ .ok .continue100) : one = other := by
  cases one with
  | error fault =>
      cases other with
      | error fault' => exact congrArg _ (Except.error.inj same)
      | ok r => cases same
  | ok r =>
      cases other with
      | error fault => cases same
      | ok r' =>
          have results : r.settled = r'.settled := Except.ok.inj same
          cases r <;> cases r' <;> first | rfl | contradiction

variable {buf : Bytes} {k : ℕ}

/-- The call on an accepted head is the call of the second part. -/
theorem once_eq (headAt : HeadAt buf buf.length k) (accepts : (headOf buf k).Accepts)
    (copyBody : Bool) :
    let body := (headOf buf k).msg.decodeBody ((headOf buf k).buf ++ buf.drop k) copyBody
    (cleared.tryDecode buf copyBody).outcome = body.1 ∧
      (cleared.tryDecode buf copyBody).msg = body.2 ∧
      (cleared.tryDecode buf copyBody).line1 = (headOf buf k).line1 := by
  obtain ⟨outcome, msg, line1, -⟩ := headAt.tryDecode_eq accepts copyBody
  rw [List.take_length] at outcome msg line1
  have quiet := (tryDecode_lowered (m := cleared) lowered_empty buf copyBody).2
  exact ⟨eq_of_settled outcome quiet (decodeBody_headers _ _ _).2, msg, line1⟩

/-- What a call on an accepted head comes to: it waits, it throws, it makes a slice that leaves the
buffer, or it takes the body. -/
structure Once (buf : Bytes) (k : ℕ) (copyBody : Bool) (d : Decode HttpMsg) : Prop where
  line1 : d.line1 = (headOf buf k).line1
  waits : (buf.length : ℤ) < (k + 4 + bodyLength buf k) % 2 ^ 64 → d.outcome = .ok .notComplete
  throws : (k + 4 + bodyLength buf k) % 2 ^ 64 ≤ buf.length → bodyLength buf k < 0 →
    copyBody = true → d.outcome = .error .lengthError
  strays : (k + 4 + bodyLength buf k) % 2 ^ 64 ≤ buf.length → bodyLength buf k < 0 →
    copyBody = false → d.outcome = .ok .complete ∧ d.msg.stray = true
  takes : (k + 4 + bodyLength buf k) % 2 ^ 64 ≤ buf.length → 0 ≤ bodyLength buf k →
    d.outcome = .ok .complete ∧ d.msg.stray = false ∧
      d.msg.getBody = (buf.drop (k + 4)).take (bodyLength buf k).toNat ∧
      d.msg.getByte = toInt32 (k + 4 + bodyLength buf k)

/-- **One call on an accepted head.** -/
theorem once_spec (headAt : HeadAt buf buf.length k) (accepts : (headOf buf k).Accepts)
    (copyBody : Bool) : Once buf k copyBody (cleared.tryDecode buf copyBody) := by
  obtain ⟨outcome, msg, line1⟩ := once_eq headAt accepts copyBody
  obtain ⟨scanned, contentLen⟩ := headOf_msg accepts
  have inside := headAt.le.2
  have whole : ((headOf buf k).buf ++ buf.drop k).length = buf.length := by
    rw [List.length_append, length_headOf inside, List.length_drop]
    omega
  have size := addSize_bodyLength buf k
  obtain ⟨lower, upper⟩ := atoi_bounds (contentLength (buf.take k))
  rw [← bodyLength] at lower upper
  have negative : 2 ^ 63 ≤ toSize (bodyLength buf k) ↔ bodyLength buf k < 0 := by
    rw [toSize]
    omega
  have arrived : addSize (headOf buf k).msg.contentLen (headOf buf k).msg.scanned ≤
      ((headOf buf k).buf ++ buf.drop k).length ↔
        (k + 4 + bodyLength buf k) % 2 ^ 64 ≤ buf.length := by
    rw [whole, scanned, contentLen, ← size]
    exact Nat.cast_le.symm
  have fresh : (headOf buf k).msg.body = [] ∧ (headOf buf k).msg.body2 = [] ∧
      (headOf buf k).msg.stray = false := by
    rw [headOf, readHead_accepts accepts]
    exact ⟨rfl, rfl, rfl⟩
  refine ⟨line1, fun short => ?_, fun long negates copies => ?_, fun long negates views => ?_,
    fun long nonneg => ?_⟩
  · rw [outcome, decodeBody, if_neg (by rw [arrived]; omega)]
  · rw [outcome, decodeBody, if_pos (arrived.mpr long), contentLen,
      if_pos ⟨copies, negative.mpr negates⟩]
  · rw [outcome, msg, decodeBody, if_pos (arrived.mpr long), if_neg (by simp [views]), takeBody, views]
    refine ⟨rfl, decide_eq_true ?_⟩
    rw [contentLen]
    exact negative.mpr negates
  · have bytes : (((headOf buf k).buf ++ buf.drop k).drop (k + 4)).take
        (toSize (bodyLength buf k)) = (buf.drop (k + 4)).take (bodyLength buf k).toNat := by
      have count : toSize (bodyLength buf k) = (bodyLength buf k).toNat := by
        rw [toSize]
        omega
      rw [count, List.drop_append, length_headOf inside, List.drop_of_length_le
        (by rw [length_headOf inside]; omega), List.nil_append, List.drop_drop,
        Nat.add_sub_cancel_left]
    have taken : (headOf buf k).msg.decodeBody ((headOf buf k).buf ++ buf.drop k) copyBody =
        (.ok .complete, { (headOf buf k).msg.takeBody ((headOf buf k).buf ++ buf.drop k) copyBody with
          complete := true
          scanned := addSize (headOf buf k).msg.scanned (headOf buf k).msg.contentLen }) := by
      rw [decodeBody, if_pos (arrived.mpr long),
        if_neg fun throws => not_lt.mpr nonneg (negative.mp (contentLen ▸ throws.2))]
    rw [outcome, msg, taken]
    refine ⟨rfl, ?_, ?_, ?_⟩
    · cases copyBody with
      | true => exact fresh.2.2
      | false =>
          refine decide_eq_false fun large => ?_
          rw [contentLen] at large
          exact not_lt.mpr nonneg (negative.mp large)
    · refine (getBody_takeBody fresh.1 fresh.2.1 fresh.2.2 _ copyBody).trans ?_
      rw [scanned, contentLen, bytes]
    · have total : ((addSize (headOf buf k).msg.scanned (headOf buf k).msg.contentLen : ℕ) : ℤ) =
          (k + 4 + bodyLength buf k) % 2 ^ 64 := by
        rw [scanned, contentLen, addSize, Nat.add_comm]
        exact size
      rw [getByte, total, toInt32_emod]

end HttpMsg

end Handy
