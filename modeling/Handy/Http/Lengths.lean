import Handy.Http.Once

/-!
# Declared lengths

What the decoder does with the length that a head declares. The number in the header is read
by `atoi`, so it may differ from the number that is declared, and it may be negative. The
decoder takes the body that was declared exactly when the header consists of digits and the
message is not too long for an `int` (`HttpMsg.declared_body_iff`). It does not wait for data
that have arrived, unless the number is read as negative or the empty line stands at the very
start (`HttpMsg.arrived_iff`).
-/

set_option autoImplicit false

namespace Handy

/-- The value of a `content-length` header declares this number: a decimal number, or zero
when there is no header. -/
def Declares (value : Bytes) (number : ℕ) : Prop :=
  (∀ c ∈ value, isDigit c = true) ∧ number = leadingNumber value

theorem Declares.unique {value : Bytes} {one other : ℕ} (declares : Declares value one)
    (again : Declares value other) : one = other := declares.2.trans again.2.symm

/-- How `atoi` reads a declared number. -/
theorem atoi_of_declares {value : Bytes} {number : ℕ} (declares : Declares value number) :
    atoi value = toInt32 (min (2 ^ 63 - 1) (number : ℤ)) := by
  obtain ⟨digits, rfl⟩ := declares
  have front : value.dropWhile isSpace = value := by
    cases value with
    | nil => rfl
    | cons c rest =>
        rw [List.dropWhile_cons_of_neg]
        simp [(isDigit_apart (digits c List.mem_cons_self)).1]
  have unsigned : value.head? ≠ some 45 ∧ value.head? ≠ some 43 := by
    cases value with
    | nil => simp
    | cons c rest =>
        obtain ⟨-, minus, plus⟩ := isDigit_apart (digits c List.mem_cons_self)
        simpa using ⟨minus, plus⟩
  have number : skipSign value = value := by
    rw [skipSign, if_neg (by simp [unsigned])]
  rw [atoi, strtol]
  simp only [front, if_neg unsigned.1, number]

theorem atoi_of_small {value : Bytes} {number : ℕ} (declares : Declares value number)
    (small : number < 2 ^ 31) : atoi value = number := by
  rw [atoi_of_declares declares, min_eq_right (by omega), toInt32_eq small]

/-- What is read is no more than what is declared, unless it is negative. -/
theorem atoi_le {value : Bytes} {number : ℕ} (declares : Declares value number)
    (nonneg : 0 ≤ atoi value) : atoi value ≤ number := by
  rw [atoi_of_declares declares] at nonneg ⊢
  have least : min (2 ^ 63 - 1) (number : ℤ) ≤ number := min_le_right _ _
  have positive : 0 ≤ min (2 ^ 63 - 1) (number : ℤ) := le_min (by norm_num) (by omega)
  generalize min (2 ^ 63 - 1) (number : ℤ) = read at least positive nonneg ⊢
  rw [toInt32, Int.bmod_def] at nonneg ⊢
  split_ifs at nonneg ⊢ <;> omega

/-! ## Outcomes of requests and responses -/

/-- The outcome of a call on a cleared request: the URI may be rejected. -/
theorem HttpRequest.outcome_once (buf : Bytes) (copyBody : Bool) :
    (HttpRequest.cleared.tryDecode buf copyBody).outcome =
      (HttpMsg.cleared.tryDecode buf copyBody).outcome.map fun r =>
        if (start (HttpMsg.cleared.tryDecode buf copyBody).line1).1 then r else .error := by
  cases returns : (HttpMsg.cleared.tryDecode buf copyBody).outcome with
  | error fault => exact tryDecode_throws returns
  | ok r => exact congrArg Decode.outcome (tryDecode_unstarted (m := .cleared) rfl returns)

/-- What a call on a cleared request leaves of the message below, apart from the version. -/
theorem HttpRequest.msg_once (buf : Bytes) (copyBody : Bool) : ∃ version,
    (HttpRequest.cleared.tryDecode buf copyBody).msg.toHttpMsg =
      { (HttpMsg.cleared.tryDecode buf copyBody).msg with version := version } :=
  (tryDecode_leaves cleared buf copyBody).1

/-- The outcome of a call on a response is that of the message below. -/
theorem HttpResponse.outcome_once (buf behind : Bytes) (copyBody : Bool) :
    (HttpResponse.cleared.tryDecode buf behind copyBody).outcome =
      (HttpMsg.cleared.tryDecode buf copyBody).outcome := by
  have fresh : HttpResponse.cleared.toHttpMsg = HttpMsg.cleared := rfl
  simp only [tryDecode, fresh]
  cases (HttpMsg.cleared.tryDecode buf copyBody).outcome with
  | error fault => rfl
  | ok r =>
      simp only
      split_ifs <;> rfl

theorem HttpResponse.msg_once (buf behind : Bytes) (copyBody : Bool) : ∃ version,
    (HttpResponse.cleared.tryDecode buf behind copyBody).msg.toHttpMsg =
      { (HttpMsg.cleared.tryDecode buf copyBody).msg with version := version } := by
  have fresh : HttpResponse.cleared.toHttpMsg = HttpMsg.cleared := rfl
  simp only [tryDecode, fresh]
  cases (HttpMsg.cleared.tryDecode buf copyBody).outcome with
  | error fault => exact ⟨_, rfl⟩
  | ok r =>
      simp only
      split_ifs
      · exact ⟨_, rfl⟩
      · exact ⟨_, rfl⟩

namespace HttpMsg

/-! ## The ways a call can go -/

/-- The outcome of a call whose start line is looked at afterwards. -/
def judged (accepted : Bytes → Bool) (d : Decode HttpMsg) : Except DecodeFault Result :=
  d.outcome.map fun r => if accepted d.line1 then r else .error

theorem judged_ok {accepted : Bytes → Bool} {d : Decode HttpMsg} {r : Result}
    (returns : d.outcome = .ok r) : judged accepted d = .ok (if accepted d.line1 then r else .error) := by
  rw [judged, returns]
  rfl

theorem judged_error {accepted : Bytes → Bool} {d : Decode HttpMsg} {fault : DecodeFault}
    (throws : d.outcome = .error fault) : judged accepted d = .error fault := by
  rw [judged, throws]
  rfl

/-- Nothing is rejected for its start line. -/
theorem judged_true (d : Decode HttpMsg) : judged (fun _ => true) d = d.outcome := by
  cases returns : d.outcome with
  | error fault => exact judged_error returns
  | ok r => exact judged_ok returns

/-- A call on a cleared message finds no head, a head with a bad line, or an accepted head. -/
theorem once_cases (buf : Bytes) (copyBody : Bool) :
    ((∀ k, FirstEmptyLine buf k → k = 0) ∧
      (cleared.tryDecode buf copyBody).outcome = .ok .notComplete ∧
      (cleared.tryDecode buf copyBody).line1 = []) ∨
    ∃ k, FirstEmptyLine buf k ∧ 0 < k ∧
      ((¬ (headOf buf k).Accepts ∧ (cleared.tryDecode buf copyBody).outcome = .ok .error) ∨
        ((headOf buf k).Accepts ∧ Once buf k copyBody (cleared.tryDecode buf copyBody))) := by
  rcases missing_or_headAt buf buf.length with ⟨k, found, searched, missing⟩ | ⟨k, headAt⟩
  · left
    have call := (tryDecode_missing searched missing copyBody).1
    rw [List.take_length] at searched call
    refine ⟨fun j first => ?_, by rw [call], by rw [call]⟩
    have there := (scan_iff buf 0 j).mpr first
    rw [searched, Nat.zero_add, Prod.mk.injEq] at there
    rcases missing with rfl | rfl
    · cases there.2
    · exact there.1.symm
  · right
    obtain ⟨first, positive⟩ := (headAt_iff buf k).mp headAt
    refine ⟨k, first, positive, ?_⟩
    by_cases accepts : (headOf buf k).Accepts
    · exact .inr ⟨accepts, once_spec headAt accepts copyBody⟩
    · have refused := headAt.tryDecode_error accepts copyBody
      rw [List.take_length] at refused
      exact .inl ⟨accepts, refused⟩

/-! ## The body that is taken -/

/-- The decoder takes a body only if it lies in the buffer, stands behind the first empty line and
is as long as the head declares. -/
structure TakesDeclared (buf : Bytes) (outcome : Except DecodeFault Result) (m : HttpMsg) :
    Prop where
  inside : m.stray = false
  declared : outcome = .ok .complete → ∃ k n, FirstEmptyLine buf k ∧
    Declares (contentLength (buf.take k)) n ∧ k + 4 + n ≤ buf.length ∧
    m.getBody = (buf.drop (k + 4)).take n ∧ m.getByte = k + 4 + n

/-- The decoder takes a body, as long as it reads from the head that ends at `k`: the buffer is
long enough, and the number is not negative or nobody copies the bytes. -/
structure TakesBody (accepted : Bytes → Bool) (buf : Bytes) (k : ℕ) (copyBody : Bool) : Prop where
  first : FirstEmptyLine buf k
  positive : 0 < k
  accepts : (headOf buf k).Accepts
  arrived : (k + 4 + bodyLength buf k) % 2 ^ 64 ≤ buf.length
  taken : 0 ≤ bodyLength buf k ∧ accepted (headOf buf k).line1 = true ∨
    bodyLength buf k < 0 ∧ copyBody = false

theorem takesDeclared_iff (accepted : Bytes → Bool) (buf : Bytes) (copyBody : Bool) :
    TakesDeclared buf (judged accepted (cleared.tryDecode buf copyBody))
        (cleared.tryDecode buf copyBody).msg ↔
      ∀ k, TakesBody accepted buf k copyBody →
        ∃ n, Declares (contentLength (buf.take k)) n ∧ k + 4 + n < 2 ^ 31 := by
  constructor
  · intro takes k body
    have headAt := (headAt_iff buf k).mpr ⟨body.first, body.positive⟩
    have once := once_spec headAt body.accepts copyBody
    rcases body.taken with ⟨nonneg, uri⟩ | ⟨negative, uncopied⟩
    · obtain ⟨complete, -, -, count⟩ := once.takes body.arrived nonneg
      have answer : judged accepted (cleared.tryDecode buf copyBody) = .ok .complete := by
        rw [judged_ok complete, once.line1, if_pos uri]
      obtain ⟨j, n, first, declares, -, -, bytes⟩ := takes.declared answer
      obtain rfl := first.unique body.first
      refine ⟨n, declares, ?_⟩
      have upper := Int.bmod_lt (x := j + 4 + bodyLength buf j) (m := 2 ^ 32) (by norm_num)
      rw [← toInt32, ← count, bytes] at upper
      push_cast at upper
      omega
    · have stray := (once.strays body.arrived negative uncopied).2
      exact absurd (stray.symm.trans takes.inside) (by decide)
  · intro bounded
    -- A call that returns something else takes no body.
    have other : ∀ r, r ≠ .complete → (cleared.tryDecode buf copyBody).outcome = .ok r →
        TakesDeclared buf (judged accepted (cleared.tryDecode buf copyBody))
          (cleared.tryDecode buf copyBody).msg := by
      intro r incomplete returns
      have differs : (cleared.tryDecode buf copyBody).outcome ≠ .ok .complete := fun complete =>
        incomplete (Except.ok.inj (returns.symm.trans complete))
      rw [judged_ok returns]
      refine ⟨stray_tryDecode differs, fun complete => ?_⟩
      have same := Except.ok.inj complete
      split_ifs at same
      exact absurd same incomplete
    rcases once_cases buf copyBody with ⟨-, pending, -⟩ | ⟨k, first, positive, ⟨-, refused⟩ |
      ⟨accepts, once⟩⟩
    · exact other _ (by simp) pending
    · exact other _ (by simp) refused
    · rcases lt_or_ge (buf.length : ℤ) ((k + 4 + bodyLength buf k) % 2 ^ 64) with short | arrived
      · exact other _ (by simp) (once.waits short)
      · rcases lt_or_ge (bodyLength buf k) 0 with negative | nonneg
        · -- A negative number is not declared, so the bytes are copied.
          have copied : copyBody = true := by
            by_contra uncopied
            obtain ⟨n, declares, small⟩ := bounded k
              ⟨first, positive, accepts, arrived, .inr ⟨negative, Bool.eq_false_of_not_eq_true uncopied⟩⟩
            rw [bodyLength, atoi_of_small declares (by omega)] at negative
            omega
          have long := once.throws arrived negative copied
          rw [judged_error long]
          exact ⟨stray_tryDecode (by rw [long]; simp), fun complete => by cases complete⟩
        · obtain ⟨complete, inside, body, count⟩ := once.takes arrived nonneg
          rw [judged_ok complete, once.line1]
          refine ⟨inside, fun uri => ?_⟩
          have uri : accepted (headOf buf k).line1 = true := by
            by_contra rejected
            rw [if_neg rejected] at uri
            cases uri
          obtain ⟨n, declares, small⟩ :=
            bounded k ⟨first, positive, accepts, arrived, .inl ⟨nonneg, uri⟩⟩
          have read : bodyLength buf k = n := atoi_of_small declares (by omega)
          rw [read] at arrived body count
          refine ⟨k, n, first, declares, by omega, ?_, ?_⟩
          · rw [body, Int.toNat_natCast]
          · rw [count]
            exact_mod_cast toInt32_eq small

/-- The start line of a request has a URI that begins with a slash, or there is none. -/
def uriAccepted (line1 : Bytes) : Bool := (HttpRequest.start line1).1

theorem takesDeclared_congr {buf : Bytes} {outcome : Except DecodeFault Result} {m other : HttpMsg}
    (stray : other.stray = m.stray) (body : other.getBody = m.getBody)
    (count : other.getByte = m.getByte) :
    TakesDeclared buf outcome other ↔ TakesDeclared buf outcome m := by
  constructor
  · rintro ⟨inside, declared⟩
    rw [body, count] at declared
    exact ⟨stray ▸ inside, declared⟩
  · rintro ⟨inside, declared⟩
    rw [← body, ← count] at declared
    exact ⟨stray ▸ inside, declared⟩

/-- **The decoder takes the declared body exactly when the length that it reads is declared by
digits alone**, and the message is not too long for an `int`. -/
theorem declared_body_iff (buf : Bytes) (copyBody : Bool) :
    (let d := HttpRequest.cleared.tryDecode buf copyBody
    TakesDeclared buf d.outcome d.msg.toHttpMsg ↔
      ∀ k, TakesBody uriAccepted buf k copyBody →
        ∃ n, Declares (contentLength (buf.take k)) n ∧ k + 4 + n < 2 ^ 31) ∧
    ∀ behind,
      let d := HttpResponse.cleared.tryDecode buf behind copyBody
      TakesDeclared buf d.outcome d.msg.toHttpMsg ↔
        ∀ k, TakesBody (fun _ => true) buf k copyBody →
          ∃ n, Declares (contentLength (buf.take k)) n ∧ k + 4 + n < 2 ^ 31 := by
  constructor
  · obtain ⟨version, msg⟩ := HttpRequest.msg_once buf copyBody
    simp only
    rw [HttpRequest.outcome_once, ← takesDeclared_iff, msg]
    exact takesDeclared_congr rfl rfl rfl
  · intro behind
    obtain ⟨version, msg⟩ := HttpResponse.msg_once buf behind copyBody
    simp only
    rw [HttpResponse.outcome_once, ← takesDeclared_iff, msg]
    rw [judged_true]
    exact takesDeclared_congr rfl rfl rfl

/-- A request that declares more bytes than an `int` counts, with five bytes behind its head. -/
def oversized : Bytes :=
  ascii "POST / HTTP/1.1\r\nContent-Length: 4294967301\r\n\r\nhello"

/-- The five bytes are taken for the whole body. -/
theorem declared_body_is_cut :
    let d := HttpRequest.cleared.tryDecode oversized true
    d.outcome = .ok .complete ∧ d.msg.toHttpMsg.getBody = ascii "hello" ∧
      ¬ TakesDeclared oversized d.outcome d.msg.toHttpMsg := by
  simp only
  have complete : (HttpRequest.cleared.tryDecode oversized true).outcome = .ok .complete := by
    decide +kernel
  refine ⟨complete, by decide +kernel, fun takes => ?_⟩
  obtain ⟨k, n, first, declares, long, -, -⟩ := takes.declared complete
  have ends : FirstEmptyLine oversized 43 := (scan_iff oversized 0 43).mp (by decide +kernel)
  obtain rfl := first.unique ends
  have number : leadingNumber (contentLength (oversized.take 43)) = 4294967301 := by decide +kernel
  have size : oversized.length = 52 := by decide +kernel
  have declared := declares.2
  omega

/-! ## Data that have arrived -/

/-- The call has come to an end, one way or the other. -/
def Decided (outcome : Except DecodeFault Result) : Prop :=
  outcome = .ok .complete ∨ outcome = .ok .error

/-- The head ends at `k` and declares `n` bytes, which are all there. -/
structure Arrived (buf : Bytes) (k n : ℕ) : Prop where
  first : FirstEmptyLine buf k
  declares : Declares (contentLength (buf.take k)) n
  behind : k + 4 + n ≤ buf.length

/-- The head that ends at `k` lets the decoder come to an end: it is not empty, and if its lines
are in order, then the length is not read as a negative number. A request may also be rejected
for its URI while the decoder waits, and without a copy of the body the decoder completes the
message with a slice that leaves the buffer. -/
def Settles (accepted : Bytes → Bool) (buf : Bytes) (k : ℕ) (copyBody : Bool) : Prop :=
  0 < k ∧ ((headOf buf k).Accepts → 0 ≤ bodyLength buf k ∨
    (buf.length : ℤ) < (k + 4 + bodyLength buf k) % 2 ^ 64 ∧
      accepted (headOf buf k).line1 = false ∨
    (k + 4 + bodyLength buf k) % 2 ^ 64 ≤ buf.length ∧ copyBody = false)

theorem decided_judged {accepted : Bytes → Bool} {d : Decode HttpMsg} {r : Result}
    (returns : d.outcome = .ok r) : Decided (judged accepted d) ↔
      r = .complete ∨ r = .error ∨ accepted d.line1 = false := by
  rw [judged_ok returns]
  cases uri : accepted d.line1 <;> cases r <;> simp [Decided]

theorem decided_iff (accepted : Bytes → Bool) (blank : accepted [] = true) (buf : Bytes)
    (copyBody : Bool) :
    ((∃ k n, Arrived buf k n) → Decided (judged accepted (cleared.tryDecode buf copyBody))) ↔
      ∀ k n, Arrived buf k n → Settles accepted buf k copyBody := by
  suffices same : ∀ k n, Arrived buf k n →
      (Decided (judged accepted (cleared.tryDecode buf copyBody)) ↔
        Settles accepted buf k copyBody) by
    constructor
    · intro decided k n arrived
      exact (same k n arrived).mp (decided ⟨k, n, arrived⟩)
    · rintro settles ⟨k, n, arrived⟩
      exact (same k n arrived).mpr (settles k n arrived)
  intro k n arrived
  rcases once_cases buf copyBody with ⟨start, pending, unset⟩ | ⟨j, first, positive, ways⟩
  · -- The empty line stands at the very start.
    rw [decided_judged pending, unset, blank, Settles, start k arrived.first]
    simp
  · obtain rfl := first.unique arrived.first
    rcases ways with ⟨refuses, refused⟩ | ⟨accepts, once⟩
    · rw [decided_judged refused, Settles]
      simp [positive, refuses]
    · rcases lt_or_ge (bodyLength buf j) 0 with negative | nonneg
      · rcases lt_or_ge (buf.length : ℤ) ((j + 4 + bodyLength buf j) % 2 ^ 64) with short | long
        · have reads : ¬ 0 ≤ bodyLength buf j := not_le.mpr negative
          have late : ¬ (j + 4 + bodyLength buf j) % 2 ^ 64 ≤ buf.length := not_le.mpr short
          rw [decided_judged (once.waits short), once.line1, Settles]
          simp only [positive, accepts, short, reads, late, true_and, true_implies, false_or, false_and,
            or_false, reduceCtorEq]
        · cases copyBody with
          | true =>
              have undecided : ¬ Decided (judged accepted (cleared.tryDecode buf true)) := by
                rw [judged_error (once.throws long negative rfl)]
                simp [Decided]
              have unsettled : ¬ Settles accepted buf j true := by
                rintro ⟨-, reads⟩
                rcases reads accepts with nonneg | ⟨short, -⟩ | ⟨-, views⟩
                · exact absurd negative (not_lt.mpr nonneg)
                · exact absurd long (not_le.mpr short)
                · cases views
              exact iff_of_false undecided unsettled
          | false =>
              rw [decided_judged (once.strays long negative rfl).1]
              exact iff_of_true (.inl rfl) ⟨positive, fun _ => .inr (.inr ⟨long, rfl⟩)⟩
      · -- The number is at most the one that is declared, so the body is there.
        have least : bodyLength buf j ≤ n := atoi_le arrived.declares nonneg
        have behind := arrived.behind
        obtain ⟨-, upper⟩ := atoi_bounds (contentLength (buf.take j))
        rw [← bodyLength] at upper
        have long : (j + 4 + bodyLength buf j) % 2 ^ 64 ≤ buf.length := by omega
        rw [decided_judged (once.takes long nonneg).1, Settles]
        simp [positive, nonneg]

/-- **The decoder waits for data that it has exactly when the empty line stands at the very start,
or when the length is read as a negative number.** -/
theorem arrived_iff (buf : Bytes) (copyBody : Bool) :
    (((∃ k n, Arrived buf k n) →
        Decided (HttpRequest.cleared.tryDecode buf copyBody).outcome) ↔
      ∀ k n, Arrived buf k n → Settles uriAccepted buf k copyBody) ∧
    ∀ behind, ((∃ k n, Arrived buf k n) →
        Decided (HttpResponse.cleared.tryDecode buf behind copyBody).outcome) ↔
      ∀ k n, Arrived buf k n → Settles (fun _ => true) buf k copyBody := by
  constructor
  · rw [HttpRequest.outcome_once]
    exact decided_iff uriAccepted rfl buf copyBody
  · intro behind
    rw [HttpResponse.outcome_once, ← judged_true]
    exact decided_iff (fun _ => true) rfl buf copyBody

/-- A buffer that begins with the empty line. -/
def headless : Bytes := ascii "\r\n\r\n"

/-- The decoder waits, although nothing is missing. -/
theorem headless_is_pending :
    Arrived headless 0 0 ∧
      (HttpRequest.cleared.tryDecode headless true).outcome = .ok .notComplete := by
  refine ⟨⟨(scan_iff headless 0 0).mp (by decide +kernel), ?_, by decide +kernel⟩,
    by decide +kernel⟩
  have absent : contentLength (headless.take 0) = [] := by decide +kernel
  rw [absent]
  exact ⟨by simp, rfl⟩

end HttpMsg

end Handy
