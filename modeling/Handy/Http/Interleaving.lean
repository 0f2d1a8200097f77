import Handy.Http.Connection
import Handy.Http.Status

/-!
# Requests between responses

A client that sends requests while responses arrive. `sendRequest` removes from `input_` what has
been scanned of the response that is being received, whether or not it is complete.

While requests are sent in order, between responses of which nothing has been scanned or in answer
to one that has been passed, exactly the responses passed are removed, and which they are depends
on the stream only (`HttpConn.responses_in_step`). A request that is sent while a response is
partly there takes the part away (`HttpConn.part_removed`).
-/

set_option autoImplicit false

namespace Handy

/-! ## Responses in a stream -/

namespace HttpMsg

variable {s : Bytes} {k k' : ℕ}

/-- There is one message at the front of a string. -/
theorem Whole.unique (whole : Whole s k) (whole' : Whole s k') : k = k' := by
  have first := (whole.headAt.mono (le_max_left (k + 4) (k' + 4))).found
  rw [(whole'.headAt.mono (le_max_right (k + 4) (k' + 4))).found] at first
  exact (Prod.mk.inj first).1.symm

theorem Whole.sizeAt_pos (_ : Whole s k) : 0 < sizeAt s k := by
  unfold sizeAt
  omega

end HttpMsg

/-- The spans are messages that follow each other from one place of a stream to another. -/
def Consecutive (stream : Bytes) : ℕ → List Span → ℕ → Prop
  | start, [], stop => start = stop
  | start, span :: rest, stop => span.start = start ∧
      (∃ k, HttpMsg.Whole (stream.drop start) k ∧ HttpMsg.sizeAt (stream.drop start) k = span.size) ∧
      Consecutive stream (start + span.size) rest stop

namespace Consecutive

variable {stream : Bytes} {start stop stop' : ℕ} {spans spans' : List Span}

/-- One more message. -/
theorem concat (consecutive : Consecutive stream start spans stop) {k : ℕ}
    (whole : HttpMsg.Whole (stream.drop stop) k) :
    Consecutive stream start (spans ++ [⟨stop, HttpMsg.sizeAt (stream.drop stop) k⟩])
      (stop + HttpMsg.sizeAt (stream.drop stop) k) := by
  induction spans generalizing start with
  | nil =>
      have here : start = stop := consecutive
      subst here
      exact ⟨rfl, ⟨k, whole, rfl⟩, rfl⟩
  | cons span rest ih =>
      obtain ⟨begins, message, later⟩ := consecutive
      exact ⟨begins, message, ih later⟩

/-- More of the stream does not change its first messages. -/
theorem append (consecutive : Consecutive stream start spans stop) (more : Bytes) :
    Consecutive (stream ++ more) start spans stop := by
  induction spans generalizing start with
  | nil => exact consecutive
  | cons span rest ih =>
      obtain ⟨begins, ⟨k, whole, size⟩, later⟩ := consecutive
      have inside := whole.inside
      have positive := whole.sizeAt_pos
      rw [List.length_drop] at inside
      obtain ⟨whole', size', -⟩ := whole.append more
      rw [← List.drop_append_of_le_length (by omega)] at whole' size'
      exact ⟨begins, ⟨k, whole', size'.trans size⟩, ih later⟩

theorem first_eq {span span' : Span} (begins : span.start = start) (begins' : span'.start = start)
    (message : ∃ k, HttpMsg.Whole (stream.drop start) k ∧
      HttpMsg.sizeAt (stream.drop start) k = span.size)
    (message' : ∃ k, HttpMsg.Whole (stream.drop start) k ∧
      HttpMsg.sizeAt (stream.drop start) k = span'.size) : span = span' := by
  obtain ⟨k, whole, size⟩ := message
  obtain ⟨k', whole', size'⟩ := message'
  have sizes : span.size = span'.size := by rw [← size, ← size', whole.unique whole']
  cases span
  cases span'
  simp only [Span.mk.injEq]
  exact ⟨begins.trans begins'.symm, sizes⟩

/-- **The messages are those of the stream**, as many as there are. -/
theorem comparable (consecutive : Consecutive stream start spans stop)
    (consecutive' : Consecutive stream start spans' stop') : spans <+: spans' ∨ spans' <+: spans := by
  induction spans generalizing start spans' with
  | nil => exact .inl List.nil_prefix
  | cons span rest ih =>
      cases spans' with
      | nil => exact .inr List.nil_prefix
      | cons span' rest' =>
          obtain ⟨begins, message, later⟩ := consecutive
          obtain ⟨begins', message', later'⟩ := consecutive'
          have same := first_eq begins begins' message message'
          subst same
          rcases ih later later' with shorter | longer
          · exact .inl (List.cons_prefix_cons.mpr ⟨rfl, shorter⟩)
          · exact .inr (List.cons_prefix_cons.mpr ⟨rfl, longer⟩)

theorem whole_of_mem (consecutive : Consecutive stream start spans stop) {span : Span}
    (member : span ∈ spans) : ∃ k, HttpMsg.Whole (stream.drop span.start) k ∧
      HttpMsg.sizeAt (stream.drop span.start) k = span.size := by
  induction spans generalizing start with
  | nil => cases member
  | cons first rest ih =>
      obtain ⟨begins, message, later⟩ := consecutive
      rcases List.mem_cons.mp member with rfl | member
      · rw [begins]
        exact message
      · exact ih later member

/-- Messages up to the end of a stream are all that there are. -/
theorem longest (consecutive : Consecutive stream start spans stream.length)
    (consecutive' : Consecutive stream start spans' stop') : spans' <+: spans := by
  induction spans generalizing start spans' with
  | nil =>
      have all : start = stream.length := consecutive
      cases spans' with
      | nil => exact List.prefix_rfl
      | cons span' rest' =>
          obtain ⟨-, ⟨k, whole, -⟩, -⟩ := consecutive'
          have inside := whole.inside
          have positive := whole.sizeAt_pos
          rw [List.length_drop] at inside
          omega
  | cons span rest ih =>
      cases spans' with
      | nil => exact List.nil_prefix
      | cons span' rest' =>
          obtain ⟨begins, message, later⟩ := consecutive
          obtain ⟨begins', message', later'⟩ := consecutive'
          have same := first_eq begins begins' message message'
          subst same
          exact List.cons_prefix_cons.mpr ⟨rfl, ih later later'⟩

end Consecutive

/-- The bytes of a part of a stream. -/
def Span.of (span : Span) (stream : Bytes) : Bytes := (stream.drop span.start).take span.size

/-- In every response of a stream, something stands where its status is read. -/
def Statuses (stream : Bytes) : Prop := ∀ (spans : List Span) (stop : ℕ),
  Consecutive stream 0 spans stop → ∀ span ∈ spans, HttpResponse.StatusWithin (span.of stream)

theorem statuses_of_consecutive {stream : Bytes} {spans : List Span}
    (consecutive : Consecutive stream 0 spans stream.length)
    (within : ∀ span ∈ spans, HttpResponse.StatusWithin (span.of stream)) : Statuses stream :=
  fun _ _ consecutive' span member =>
    within span ((consecutive.longest consecutive').subset member)

namespace HttpConn

variable {c c' : HttpConn}

/-! ## In order -/

/-- Where the responses that were passed to the callback stand in the stream, each once. -/
def delivered (c : HttpConn) : List Span := (c.seen.calls.filter (!·.again)).map HttpCall.span

/-- These responses. -/
def responses (c : HttpConn) : List HttpResponse :=
  (c.seen.calls.filter (!·.again)).map HttpCall.resp

/-- What `clearData` has removed from `input_`. -/
def answered (c : HttpConn) : List Span := c.seen.removed.filter (·.size ≠ 0)

/-- A request is sent in answer to a response that was passed, whose size is an `int`, or when
nothing of a response has been scanned. -/
def InOrder (c : HttpConn) (event : HttpEvent) : Prop :=
  (event.reads = true → c.input.length < 2 ^ 63) ∧
  (event.sends = true →
    (c.seen.unanswered = true → c.resp.scanned < 2 ^ 31) ∧
    (c.seen.unanswered = false → c.resp.scanned = 0))

instance (c : HttpConn) (event : HttpEvent) : Decidable (c.InOrder event) :=
  inferInstanceAs (Decidable ((_ → _) ∧ (_ → (_ → _) ∧ (_ → _))))

/-- The response that was passed is the one that a cleared message makes of its bytes. -/
def Decoded (stream : Bytes) (call : HttpCall) : Prop :=
  call.span.start + call.span.size ≤ stream.length ∧ ∃ behind, call.resp =
    (HttpResponse.cleared.tryDecode (call.span.of stream) behind true).msg

/-- Exactly responses that were passed are removed, and they are those of the stream. -/
structure InStep (c : HttpConn) : Prop where
  removed : c.answered <+: c.delivered
  messages : ∃ stop, Consecutive c.seen.stream 0 c.delivered stop
  decoded : ∀ call ∈ c.seen.calls, Decoded c.seen.stream call

/-! ## Phases -/

/-- The bytes that were received and not removed, as they were received. -/
def rest (c : HttpConn) : Bytes := c.seen.stream.drop c.seen.consumed

/-- What a client is doing. -/
inductive Phase (c : HttpConn) : Prop where
  | waiting (quiet : c.seen.unanswered = false) (even : c.delivered = c.answered)
      (resumes : ∀ future, ∃ n ≤ c.input.length,
        HttpResponse.Resumes (c.rest ++ future) n c.resp (c.input ++ future))
  | passed {k : ℕ} (waits : c.seen.unanswered = true) (whole : HttpMsg.Whole c.rest k)
      (ahead : c.delivered = c.answered ++ [⟨c.seen.consumed, HttpMsg.sizeAt c.rest k⟩])
      (complete : c.resp.complete = true) (scanned : c.resp.scanned = HttpMsg.sizeAt c.rest k)
      (input : c.input.drop (HttpMsg.sizeAt c.rest k) = c.rest.drop (HttpMsg.sizeAt c.rest k))
      (read : ∃ behind, c.resp = (HttpResponse.cleared.tryDecode
        (c.rest.take (HttpMsg.sizeAt c.rest k)) behind true).msg)
  | rejected (quiet : c.seen.unanswered = false) (even : c.delivered = c.answered)
      (broken : c.resp.toHttpMsg.Broken c.input.length c.input)

/-- The invariant of a client. -/
structure Interleaved (c : HttpConn) : Prop where
  client : c.isClient = true
  bounded : c.seen.consumed ≤ c.seen.stream.length
  length : c.input.length = c.rest.length
  messages : Consecutive c.seen.stream 0 c.answered c.seen.consumed
  decoded : ∀ call ∈ c.seen.calls, Decoded c.seen.stream call
  phase : Phase c

theorem interleaved_new : Interleaved (new true) := by
  refine ⟨rfl, Nat.zero_le _, rfl, rfl, fun call member => absurd member List.not_mem_nil, ?_⟩
  exact .waiting rfl rfl fun future => ⟨0, Nat.zero_le _, .searching (.start _)⟩

/-- The invariant is enough. -/
theorem Interleaved.inStep (interleaved : Interleaved c) : InStep c := by
  have messages := interleaved.messages
  cases interleaved.phase with
  | waiting quiet even resumes =>
      exact ⟨even ▸ List.prefix_rfl, ⟨_, even ▸ messages⟩, interleaved.decoded⟩
  | rejected quiet even broken =>
      exact ⟨even ▸ List.prefix_rfl, ⟨_, even ▸ messages⟩, interleaved.decoded⟩
  | passed waits whole ahead complete scanned input read =>
      exact ⟨ahead ▸ List.prefix_append _ _, ⟨_, ahead ▸ messages.concat whole⟩, interleaved.decoded⟩

/-! ## Steps -/

/-- More of the stream does not change what was passed. -/
theorem Decoded.append {stream : Bytes} {call : HttpCall} (decoded : Decoded stream call)
    (more : Bytes) : Decoded (stream ++ more) call := by
  obtain ⟨inside, behind, resp⟩ := decoded
  have size : call.span.size ≤ (stream.drop call.span.start).length := by
    rw [List.length_drop]
    omega
  refine ⟨inside.trans (by rw [List.length_append]; omega), behind, ?_⟩
  rw [Span.of, List.drop_append_of_le_length (by omega), List.take_append_of_le_length size, resp]
  rfl

/-- Bytes arrive. -/
theorem Interleaved.receive (interleaved : Interleaved c) (bytes : Bytes) :
    Interleaved (c.receive bytes) := by
  have grown : (c.receive bytes).rest = c.rest ++ bytes :=
    List.drop_append_of_le_length interleaved.bounded
  refine ⟨interleaved.client, ?_, ?_, interleaved.messages.append bytes,
    fun call member => (interleaved.decoded call member).append bytes, ?_⟩
  · show c.seen.consumed ≤ (c.seen.stream ++ bytes).length
    rw [List.length_append]
    exact interleaved.bounded.trans (Nat.le_add_right _ _)
  · rw [grown, List.length_append, ← interleaved.length]
    exact List.length_append
  · cases interleaved.phase with
    | waiting quiet even resumes =>
        refine .waiting quiet even fun future => ?_
        obtain ⟨n, le, resumes⟩ := resumes (bytes ++ future)
        refine ⟨n, le.trans (by simp [HttpConn.receive]), ?_⟩
        rw [grown, List.append_assoc]
        show HttpResponse.Resumes _ n c.resp (c.input ++ bytes ++ future)
        rwa [List.append_assoc]
    | passed waits whole ahead complete scanned input read =>
        obtain ⟨behind, read⟩ := read
        obtain ⟨more, size, -⟩ := whole.append bytes
        have inside := whole.inside
        rw [← grown] at more size
        refine .passed waits more ?_ complete ?_ ?_ ⟨behind, ?_⟩
        · rw [size]
          exact ahead
        · rw [size]
          exact scanned
        · rw [size, grown]
          show (c.input ++ bytes).drop _ = _
          rw [List.drop_append_of_le_length (by rw [interleaved.length]; exact inside), input,
            List.drop_append_of_le_length inside]
        · rw [size, grown, List.take_append_of_le_length inside]
          exact read
    | rejected quiet even broken =>
        have longer : c.input.length ≤ (c.receive bytes).input.length := by simp [HttpConn.receive]
        refine .rejected quiet even (HttpMsg.Broken.mono ?_ longer)
        have inside := broken.inside.2
        have front : (c.input ++ bytes).take c.input.length = c.input.take c.input.length := by
          rw [List.take_left, List.take_length]
        refine ⟨broken.isOpen, broken.idle, broken.positive, ?_, ?_⟩
        · show HttpMsg.scan (((c.input ++ bytes).take c.input.length).drop c.resp.scanned) _ = _
          rw [front]
          exact broken.found
        · show HttpMsg.Refused ((c.input ++ bytes).take c.resp.scanned)
          rw [List.take_append_of_le_length inside]
          exact broken.refused

/-- Nothing is received, decoded or cleared. -/
theorem Interleaved.aside (interleaved : Interleaved c) (aside : Aside c c') : Interleaved c' := by
  have resp := aside.client interleaved.client
  have rest : c'.rest = c.rest := by rw [HttpConn.rest, HttpConn.rest, aside.seen]
  have delivered : c'.delivered = c.delivered := by
    rw [HttpConn.delivered, HttpConn.delivered, aside.seen]
  have answered : c'.answered = c.answered := by
    rw [HttpConn.answered, HttpConn.answered, aside.seen]
  refine ⟨aside.isClient.trans interleaved.client, ?_, ?_, ?_, ?_, ?_⟩
  · rw [aside.seen]
    exact interleaved.bounded
  · rw [aside.input, rest]
    exact interleaved.length
  · rw [aside.seen, answered]
    exact interleaved.messages
  · rw [aside.seen]
    exact interleaved.decoded
  · cases interleaved.phase with
    | waiting quiet even resumes =>
        refine .waiting (by rw [aside.seen, quiet]) (by rw [delivered, answered, even]) ?_
        rw [rest, resp, aside.input]
        exact resumes
    | passed waits whole ahead complete scanned input read =>
        rw [← rest] at whole scanned input read ahead
        refine .passed (by rw [aside.seen, waits]) whole ?_ (resp ▸ complete) (resp ▸ scanned)
          (aside.input ▸ input) (resp ▸ read)
        rw [delivered, answered, aside.seen, ahead]
    | rejected quiet even broken =>
        refine .rejected (by rw [aside.seen, quiet]) (by rw [delivered, answered, even]) ?_
        rw [resp, aside.input]
        exact broken

/-- A cleared response waits for what is in the buffer. -/
theorem interleaved_cleared (client : c.isClient = true) (resp : c.resp = .cleared)
    (quiet : c.seen.unanswered = false) (bounded : c.seen.consumed ≤ c.seen.stream.length)
    (input : c.input = c.rest) (even : c.delivered = c.answered)
    (messages : Consecutive c.seen.stream 0 c.answered c.seen.consumed)
    (decoded : ∀ call ∈ c.seen.calls, Decoded c.seen.stream call) : Interleaved c := by
  refine ⟨client, bounded, congrArg List.length input, messages, decoded, ?_⟩
  refine .waiting quiet even fun future => ⟨0, Nat.zero_le _, ?_⟩
  rw [resp, input]
  exact .searching (.start _)

/-- **A request in order** removes the response that was passed, or nothing. -/
theorem Interleaved.clears (interleaved : Interleaved c)
    (answers : c.seen.unanswered = true → c.resp.scanned < 2 ^ 31)
    (between : c.seen.unanswered = false → c.resp.scanned = 0) (clears : Clears c c') :
    Interleaved c' := by
  have message : c.message = c.resp.toHttpMsg := if_pos interleaved.client
  have client := clears.isClient.trans interleaved.client
  have resp := clears.client interleaved.client
  obtain ⟨sent, seen⟩ := clears.seen
  have input := clears.input
  rw [message] at seen input
  have delivered : c'.delivered = c.delivered := by rw [HttpConn.delivered, HttpConn.delivered, seen]
  have decoded : ∀ call ∈ c'.seen.calls, Decoded c'.seen.stream call := by
    rw [seen]
    exact interleaved.decoded
  cases interleaved.phase with
  | @passed k waits whole ahead complete scanned taken read =>
      have size : toSize c.resp.getByte = HttpMsg.sizeAt c.rest k := by
        rw [toSize_getByte (answers waits), scanned]
      rw [size] at seen input
      have positive := whole.sizeAt_pos
      have inside := whole.inside
      have answered : c'.answered = c.answered ++ [⟨c.seen.consumed, HttpMsg.sizeAt c.rest k⟩] := by
        rw [HttpConn.answered, seen, List.filter_append]
        have kept : decide (HttpMsg.sizeAt c.rest k ≠ 0) = true := by simpa using positive.ne'
        simp only [List.filter_cons, kept, if_true, List.filter_nil]
        rfl
      have rest : c'.rest = c.rest.drop (HttpMsg.sizeAt c.rest k) := by
        rw [HttpConn.rest, seen, HttpConn.rest, List.drop_drop]
      refine interleaved_cleared client resp (by rw [seen]) ?_ (by rw [input, rest, taken]) ?_ ?_ decoded
      · rw [seen]
        show c.seen.consumed + HttpMsg.sizeAt c.rest k ≤ c.seen.stream.length
        have bounded := interleaved.bounded
        have length : c.rest.length = c.seen.stream.length - c.seen.consumed := List.length_drop
        omega
      · rw [delivered, answered, ahead]
      · rw [answered, seen]
        exact interleaved.messages.concat whole
  | waiting quiet even resumes =>
      have scanned := between quiet
      have size : toSize c.resp.getByte = 0 := by
        rw [toSize_getByte (by omega), scanned]
      rw [size] at seen input
      obtain ⟨n, -, resumes⟩ := resumes []
      have same := (resumes.cleared_of_scanned scanned).2
      rw [List.append_nil, List.append_nil] at same
      have answered : c'.answered = c.answered := by
        rw [HttpConn.answered, seen, List.filter_append]
        simp [HttpConn.answered]
      have rest : c'.rest = c.rest := by rw [HttpConn.rest, seen, HttpConn.rest, Nat.add_zero]
      refine interleaved_cleared client resp (by rw [seen]) ?_ (by rw [input, rest, same, List.drop_zero])
        (by rw [delivered, answered, even]) ?_ decoded
      · rw [seen]
        exact interleaved.bounded
      · rw [answered, seen]
        exact interleaved.messages
  | rejected quiet even broken =>
      exact absurd (between quiet) broken.positive.ne'

/-! ## Reading -/

/-- The client when the decoder has returned. -/
def decodedResponse (c : HttpConn) (behind : Bytes) : HttpConn := { c with
  resp := (c.resp.tryDecode c.input behind true).msg
  input := (c.resp.tryDecode c.input behind true).buf }

theorem decode_client (client : c.isClient = true) (behind : Bytes) : c.decode behind =
    ((c.resp.tryDecode c.input behind true).outcome, c.decodedResponse behind) := by
  rw [decode, if_pos client]
  rfl

/-- The decoder returns, and nothing is passed. -/
theorem Interleaved.decoded_of_phase (interleaved : Interleaved c) (behind : Bytes)
    (phase : Phase (c.decodedResponse behind)) : Interleaved (c.decodedResponse behind) := by
  have length := interleaved.length
  refine ⟨interleaved.client, interleaved.bounded, ?_, interleaved.messages, interleaved.decoded, phase⟩
  rw [← HttpResponse.length_buf c.resp c.input behind true] at length
  exact length

/-- **A call of the decoder that does not complete a response.** -/
theorem Interleaved.pending (interleaved : Interleaved c) {behind : Bytes} {r : Result}
    (returns : (c.resp.tryDecode c.input behind true).outcome = .ok r) (other : r ≠ .complete) :
    Interleaved (c.decodedResponse behind) := by
  refine interleaved.decoded_of_phase behind ?_
  have held : (c.decodedResponse behind).input.length = c.input.length :=
    HttpResponse.length_buf c.resp c.input behind true
  cases interleaved.phase with
  | passed waits whole ahead complete scanned input read =>
      rw [HttpResponse.tryDecode_complete complete] at returns
      exact absurd (Except.ok.inj returns).symm other
  | rejected quiet even broken =>
      obtain ⟨-, again⟩ := HttpResponse.tryDecode_broken broken behind
      rw [List.take_length, List.drop_length, List.append_nil] at again
      refine .rejected quiet even ?_
      rw [held]
      exact again
  | waiting quiet even resumes =>
      have memory : ∀ future : Bytes, (c.input ++ future).take c.input.length = c.input :=
        fun future => List.take_left
      have left : ∀ future : Bytes, (c.input ++ future).drop c.input.length = future :=
        fun future => List.drop_left
      by_cases waits : Pending (c.resp.tryDecode c.input behind true).outcome
      · refine .waiting quiet even fun future => ⟨c.input.length, held.ge, ?_⟩
        obtain ⟨n, le, resumes⟩ := resumes future
        obtain ⟨-, -, later⟩ := resumes.tryDecode_eq le behind true
        rw [memory, left] at later
        exact later waits
      · have fails : (c.resp.tryDecode c.input behind true).outcome = .ok .error := by
          rw [returns] at waits ⊢
          cases r with
          | error => rfl
          | complete => exact absurd rfl other
          | notComplete => exact absurd (.inl rfl) waits
          | continue100 => exact absurd (.inr rfl) waits
        obtain ⟨n, le, resumes⟩ := resumes []
        have again : (c.resp.tryDecode ((c.input ++ []).take c.input.length) behind true).outcome =
            .ok .error := by rw [memory, fails]
        have broken := resumes.broken le again
        rw [memory, left, List.append_nil] at broken
        refine .rejected quiet even ?_
        rw [held]
        exact broken

/-- What is passed to the callback of a client. -/
theorem call_calls (client : c.isClient = true) : c.call.seen.calls = c.seen.calls ++
    [⟨⟨c.seen.consumed, c.resp.scanned⟩, c.seen.unanswered, c.req, c.resp⟩] := by
  have message : c.message = c.resp.toHttpMsg := if_pos client
  rw [call, message]

theorem delivered_call (client : c.isClient = true) : c.call.delivered =
    c.delivered ++ if c.seen.unanswered then [] else [⟨c.seen.consumed, c.resp.scanned⟩] := by
  rw [delivered, call_calls client, List.filter_append, List.map_append]
  cases waits : c.seen.unanswered <;> rfl

/-- The decoder returns, and the response is passed. -/
theorem Interleaved.call_of_phase (interleaved : Interleaved c) (behind : Bytes)
    (decoded : ∀ again req, Decoded c.seen.stream
      ⟨⟨c.seen.consumed, (c.decodedResponse behind).resp.scanned⟩, again, req,
        (c.decodedResponse behind).resp⟩)
    (phase : Phase (c.decodedResponse behind).call) : Interleaved (c.decodedResponse behind).call := by
  have length := interleaved.length
  rw [← HttpResponse.length_buf c.resp c.input behind true] at length
  refine ⟨interleaved.client, interleaved.bounded, length, interleaved.messages, ?_, phase⟩
  intro call member
  rw [call_calls (c := c.decodedResponse behind) interleaved.client] at member
  rcases List.mem_append.mp member with earlier | last
  · exact interleaved.decoded call earlier
  · rw [List.mem_singleton.mp last]
    exact decoded _ _

/-- A message inside what is left of the stream is inside the stream. -/
theorem inside_stream {size : ℕ} (bounded : c.seen.consumed ≤ c.seen.stream.length)
    (inside : size ≤ c.rest.length) : c.seen.consumed + size ≤ c.seen.stream.length := by
  have length : c.rest.length = c.seen.stream.length - c.seen.consumed := List.length_drop
  omega

/-- **A call of the decoder that completes a response**, which is passed to the callback. -/
theorem Interleaved.passes (interleaved : Interleaved c) {behind : Bytes}
    (small : c.input.length < 2 ^ 63)
    (returns : (c.resp.tryDecode c.input behind true).outcome = .ok .complete) :
    Interleaved (c.decodedResponse behind).call := by
  cases interleaved.phase with
  | rejected quiet even broken =>
      have fails := (HttpResponse.tryDecode_broken broken behind).1
      rw [List.take_length, returns] at fails
      cases fails
  | @passed k waits whole ahead complete scanned input read =>
      -- It has been passed before, and stays as it is.
      have same : c.decodedResponse behind = c := by
        rw [decodedResponse, HttpResponse.tryDecode_complete complete]
      refine interleaved.call_of_phase behind ?_ ?_
      · rw [same, scanned]
        exact fun again req => ⟨inside_stream interleaved.bounded whole.inside, read⟩
      · rw [same]
        refine .passed rfl whole ?_ complete scanned input read
        rw [delivered_call interleaved.client, waits, if_pos rfl, List.append_nil]
        exact ahead
  | waiting quiet even resumes =>
      have length := interleaved.length
      have all : c.rest.take c.input.length = c.rest := by rw [length, List.take_length]
      obtain ⟨n, le, resumes⟩ := resumes []
      rw [List.append_nil, List.append_nil] at resumes
      have completes := resumes.completes le behind
      rw [all, List.take_length, ← length] at completes
      obtain ⟨k, whole, -, complete, scanned, buf, read⟩ := completes small returns
      have size : (c.decodedResponse behind).resp.scanned = HttpMsg.sizeAt c.rest k := scanned
      refine interleaved.call_of_phase behind ?_ (.passed rfl whole ?_ complete scanned buf read)
      · rw [size]
        exact fun again req => ⟨inside_stream interleaved.bounded whole.inside, read⟩
      · rw [delivered_call (c := c.decodedResponse behind) interleaved.client, size]
        show c.delivered ++ (if c.seen.unanswered then [] else _) = c.answered ++ _
        rw [quiet, even]
        rfl

/-- **One step in order.** -/
theorem Interleaved.step {event : HttpEvent} (interleaved : Interleaved c) (inOrder : c.InOrder event)
    (effect : Effect c event c') : Interleaved c' := by
  cases effect with
  | receive bytes => exact interleaved.receive bytes
  | aside quiet aside => exact interleaved.aside aside
  | clears sends clears =>
      obtain ⟨answers, between⟩ := inOrder.2 sends
      exact interleaved.clears answers between clears
  | @reads behind r c₁ _ reads other aside =>
      have decodes := reads.decodes
      rw [decode_client interleaved.client] at decodes
      obtain ⟨returns, rfl⟩ := Prod.mk.inj decodes
      exact (interleaved.pending returns other).aside aside
  | @calls behind c₁ reads =>
      have decodes := reads.decodes
      rw [decode_client interleaved.client] at decodes
      obtain ⟨returns, rfl⟩ := Prod.mk.inj decodes
      exact interleaved.passes (inOrder.1 rfl) returns

/-- **A run in order.** -/
theorem inStep_of_run {events : List HttpEvent} (run : LabelledRun
    (fun c event c' => HttpStep c event c' ∧ c.InOrder event) (new true) events c) : InStep c := by
  have interleaved := run.invariant Interleaved
    (fun _ _ _ before taken => before.step taken.2 (step_effect taken.1)) interleaved_new
  exact interleaved.inStep

/-! ## The same stream -/

/-- The response that some bytes of a stream stand for. -/
def readAt (stream : Bytes) (span : Span) : HttpResponse :=
  (HttpResponse.cleared.tryDecode (span.of stream) [] true).msg

/-- With a status in each response, they are what their bytes stand for. -/
theorem InStep.responses_eq (inStep : InStep c) (statuses : Statuses c.seen.stream) :
    c.responses = c.delivered.map (readAt c.seen.stream) := by
  obtain ⟨stop, consecutive⟩ := inStep.messages
  rw [responses, delivered, List.map_map]
  refine List.map_congr_left fun call member => ?_
  have passed : call.span ∈ c.delivered := List.mem_map_of_mem member
  obtain ⟨-, behind, resp⟩ := inStep.decoded call (List.mem_filter.mp member).1
  obtain ⟨k, whole, size⟩ := consecutive.whole_of_mem passed
  have within := statuses _ stop consecutive call.span passed
  rw [Span.of, ← size] at within resp
  rw [resp, within.read_eq whole behind, size]
  rfl

/-- **Requests that are sent in order do not change which responses come**: exactly responses that
were passed are removed, and of two clients that have received the same stream, one has passed
what the other has, and maybe more. -/
theorem responses_in_step {events₁ events₂ : List HttpEvent} {c₁ c₂ : HttpConn}
    (run₁ : LabelledRun (fun c event c' => HttpStep c event c' ∧ c.InOrder event) (new true) events₁ c₁)
    (run₂ : LabelledRun (fun c event c' => HttpStep c event c' ∧ c.InOrder event) (new true) events₂ c₂)
    (same : c₁.seen.stream = c₂.seen.stream) : InStep c₁ ∧ InStep c₂ ∧
      (c₁.delivered <+: c₂.delivered ∨ c₂.delivered <+: c₁.delivered) ∧
      (Statuses c₁.seen.stream → c₁.responses <+: c₂.responses ∨ c₂.responses <+: c₁.responses) := by
  have one := inStep_of_run run₁
  have other := inStep_of_run run₂
  obtain ⟨stop₁, messages₁⟩ := one.messages
  obtain ⟨stop₂, messages₂⟩ := other.messages
  rw [← same] at messages₂
  have comparable := messages₁.comparable messages₂
  refine ⟨one, other, comparable, fun statuses => ?_⟩
  rw [one.responses_eq statuses, other.responses_eq (same ▸ statuses), ← same]
  exact comparable.imp (fun shorter => shorter.map _) fun longer => longer.map _

/-- A response of 27 bytes. -/
def noContent : Bytes := ascii "HTTP/1.1 204 No Content\r\n\r\n"

/-- A request for each of two responses, and one more when a part of the second response has
arrived, which has not been scanned. -/
def requestedBetween : List HttpEvent :=
  [.sendRequest none, .receive noContent, .callRead [], .sendRequest none,
    .receive (noContent.take 5), .sendRequest none, .receive (noContent.drop 5), .callRead []]

/-- No request at all. -/
def neverRequested : List HttpEvent := [.receive (noContent ++ noContent), .callRead []]

theorem responses_in_step_between : ∃ c₁ c₂, (new true).execute InOrder requestedBetween = some c₁ ∧
    (new true).execute InOrder neverRequested = some c₂ ∧
    c₁.delivered = [⟨0, 27⟩, ⟨27, 27⟩] ∧ c₂.delivered = [⟨0, 27⟩] ∧ InStep c₁ ∧
    (c₁.responses <+: c₂.responses ∨ c₂.responses <+: c₁.responses) := by
  have first : ((new true).execute InOrder requestedBetween).map
      (fun c => (c.delivered, c.seen.stream)) =
        some ([⟨0, 27⟩, ⟨27, 27⟩], noContent ++ noContent) := by decide +kernel
  have second : ((new true).execute InOrder neverRequested).map
      (fun c => (c.delivered, c.seen.stream)) =
        some ([⟨0, 27⟩], noContent ++ noContent) := by decide +kernel
  obtain ⟨c₁, ran₁, seen₁⟩ := Option.map_eq_some_iff.mp first
  obtain ⟨c₂, ran₂, seen₂⟩ := Option.map_eq_some_iff.mp second
  obtain ⟨delivered₁, stream₁⟩ := Prod.mk.inj seen₁
  obtain ⟨delivered₂, stream₂⟩ := Prod.mk.inj seen₂
  obtain ⟨one, -, -, responses⟩ := responses_in_step (execute_run ran₁) (execute_run ran₂)
    (stream₁.trans stream₂.symm)
  obtain ⟨stop, consecutive⟩ := one.messages
  rw [delivered₁] at consecutive
  have ends : 54 = stop := consecutive.2.2.2.2
  have long : c₁.seen.stream.length = 54 := by
    rw [stream₁]
    decide +kernel
  rw [← ends, ← long] at consecutive
  have within : ∀ span ∈ [(⟨0, 27⟩ : Span), ⟨27, 27⟩],
      HttpResponse.StatusWithin (span.of (noContent ++ noContent)) := by decide +kernel
  rw [← stream₁] at within
  exact ⟨c₁, c₂, ran₁, ran₂, delivered₁, delivered₂, one,
    responses (statuses_of_consecutive consecutive within)⟩

/-- A request that is sent while a response is partly there. -/
def requestedWithin : List HttpEvent :=
  [.receive (ascii "HTTP/1.1 200 OK\r\nContent-Length: 5\r\n\r\nab"), .callRead [],
    .sendRequest none]

/-- **Bytes of a response that has not been passed are removed.** -/
theorem part_removed : ∃ c, LabelledRun HttpStep (new true) requestedWithin c ∧
    c.answered = [⟨0, 38⟩] ∧ c.delivered = [] ∧ ¬ InStep c := by
  have removed : ((new true).execute (fun _ _ => True) requestedWithin).map
      (fun c => (c.answered, c.delivered)) = some ([⟨0, 38⟩], []) := by decide +kernel
  obtain ⟨c, ran, spans⟩ := Option.map_eq_some_iff.mp removed
  obtain ⟨answered, delivered⟩ := Prod.mk.inj spans
  refine ⟨c, (execute_run ran).mono fun _ _ _ _ taken => taken.1, answered, delivered, fun inStep => ?_⟩
  have ahead := inStep.removed
  rw [answered, delivered] at ahead
  exact absurd (List.eq_nil_of_prefix_nil ahead) (by decide)

end HttpConn

end Handy
