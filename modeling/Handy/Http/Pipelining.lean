import Handy.Http.Connection
import Handy.Http.Whole
import Handy.Lib.Backlog

/-!
# Requests behind each other

A server whose callback answers every request at once, and the requests of one client, of which
any number may have arrived when the socket is drained. The read callback decodes one request, so
of several requests that arrive together all but the first are left in `input_`, until there is
another readable event.

After every readable event all requests that have arrived have been answered exactly if the requests
are paced (`HttpConn.pipelined_iff`): no number of last events brings more requests than there are
events.
-/

set_option autoImplicit false

namespace Handy

/-! ## Requests in a stream -/

/-- How many of the pieces lie in the first `n` bytes, when they follow each other. -/
def completed : List Bytes → ℕ → ℕ
  | [], _ => 0
  | piece :: rest, n => if piece.length ≤ n then completed rest (n - piece.length) + 1 else 0

theorem le_completed_iff (pieces : List Bytes) (i n : ℕ) :
    i ≤ completed pieces n ↔ i ≤ pieces.length ∧ (pieces.take i).flatten.length ≤ n := by
  induction pieces generalizing i n with
  | nil => simp [completed]
  | cons piece rest ih =>
      cases i with
      | zero => simp
      | succ i =>
          simp only [completed, List.take_succ_cons, List.flatten_cons, List.length_append,
            List.length_cons]
          split_ifs with arrived
          · rw [Nat.add_le_add_iff_right, Nat.add_le_add_iff_right, ih]
            exact and_congr_right fun _ => by omega
          · exact iff_of_false (by omega) fun both => arrived (by omega)

theorem completed_zero {pieces : List Bytes} (nonempty : ∀ piece ∈ pieces, piece ≠ []) :
    completed pieces 0 = 0 := by
  cases pieces with
  | nil => rfl
  | cons piece rest =>
      have long := List.length_pos_iff.mpr (nonempty piece List.mem_cons_self)
      rw [completed, if_neg (by omega)]

namespace HttpConn

variable {c c' : HttpConn} {requests chunks : List Bytes} {cb : HttpCallBack}

/-- The callback fills the response of the connection and sends it, or one of its own. -/
def Answers (cb : HttpCallBack) : Prop :=
  ∀ c, ∃ resp own, cb c = { c with resp := resp }.sendResponseOf own

/-- What is sent is on its way, if the message fits. -/
theorem sendEncoded_ok (output : Buffer) (fits : toSize c.message.getByte ≤ c.input.length) :
    ∃ c', c.sendEncoded output = .ok c' := by
  unfold message at fits
  unfold sendEncoded clearData consumeInput
  cases side : c.isClient with
  | true =>
      rw [side, if_pos rfl] at fits
      simp only [if_true, if_pos fits]
      exact ⟨_, rfl⟩
  | false =>
      rw [side, if_neg Bool.false_ne_true] at fits
      simp only [Bool.false_eq_true, if_false, if_pos fits]
      exact ⟨_, rfl⟩

/-- The server has answered the first `i` requests, and has received no more than the requests. -/
structure Serving (requests : List Bytes) (c : HttpConn) (i : ℕ) : Prop where
  server : c.isClient = false
  readcb : c.readcb = true
  bounded : i ≤ requests.length
  calls : c.seen.calls.map HttpCall.req = (requests.take i).map HttpRequest.read
  size : (requests.take i).flatten.length + c.input.length = c.seen.stream.length
  future : ∃ future, c.seen.stream ++ future = requests.flatten ∧ ∃ n ≤ c.input.length,
    HttpRequest.Resumes (requests.drop i).flatten n c.req (c.input ++ future)

theorem serving_new (requests : List Bytes) : Serving requests (new false) 0 := by
  refine ⟨rfl, rfl, Nat.zero_le _, rfl, rfl, requests.flatten, rfl, 0, le_rfl, ?_⟩
  exact .searching (.start _)

/-- Bytes arrive. -/
theorem Serving.receive {i : ℕ} (serving : Serving requests c i) {bytes : Bytes}
    (received : c.seen.stream ++ bytes <+: requests.flatten) :
    Serving requests (c.receive bytes) i := by
  obtain ⟨future, whole, n, le, resumes⟩ := serving.future
  obtain ⟨rest, split⟩ := received
  have shape : future = bytes ++ rest := by
    rw [← split, List.append_assoc] at whole
    exact List.append_cancel_left whole
  refine ⟨serving.server, serving.readcb, serving.bounded, serving.calls, ?_, rest, split, n, ?_, ?_⟩
  · have size := serving.size
    simp only [HttpConn.receive, List.length_append]
    omega
  · simp only [HttpConn.receive, List.length_append]
    omega
  · simp only [HttpConn.receive, List.append_assoc]
    rwa [← shape]

/-- The bytes that have not arrived are the end of what is left of the requests. -/
theorem Serving.future_eq {i : ℕ} {future : Bytes} (serving : Serving requests c i)
    (whole : c.seen.stream ++ future = requests.flatten) :
    future = (requests.drop i).flatten.drop c.input.length := by
  have split : requests.flatten = (requests.take i).flatten ++ (requests.drop i).flatten := by
    rw [← List.flatten_append, List.take_append_drop]
  have cut := congrArg (List.drop c.seen.stream.length) whole
  rw [List.drop_left, split, ← serving.size, List.drop_append,
    List.drop_of_length_le (Nat.le_add_right _ _), List.nil_append, Nat.add_sub_cancel_left] at cut
  exact cut

theorem take_succ_of_drop {i : ℕ} {request : Bytes} {rest : List Bytes}
    (next : requests.drop i = request :: rest) :
    requests.take (i + 1) = requests.take i ++ [request] ∧ requests.drop (i + 1) = rest ∧
      i < requests.length := by
  have inside : i < requests.length := by
    by_contra beyond
    rw [List.drop_of_length_le (not_lt.mp beyond)] at next
    cases next
  rw [List.drop_eq_getElem_cons inside, List.cons.injEq] at next
  exact ⟨by rw [← next.1, List.take_append_getElem], next.2, inside⟩

/-- The next request has not arrived. -/
theorem Serving.completed_eq {i : ℕ} (serving : Serving requests c i)
    (missing : ∀ request rest, requests.drop i = request :: rest → c.input.length < request.length) :
    min (i + 1) (completed requests c.seen.stream.length) = i := by
  have size := serving.size
  have answered : i ≤ completed requests c.seen.stream.length :=
    (le_completed_iff _ _ _).mpr ⟨serving.bounded, by omega⟩
  have next : ¬ i + 1 ≤ completed requests c.seen.stream.length := by
    intro more
    obtain ⟨inside, arrived⟩ := (le_completed_iff _ _ _).mp more
    obtain ⟨request, rest, shape⟩ := List.exists_cons_of_ne_nil
      (show requests.drop i ≠ [] from fun none => by
        have short := List.drop_eq_nil_iff.mp none
        omega)
    have short := missing request rest shape
    rw [(take_succ_of_drop shape).1, List.flatten_append, List.length_append] at arrived
    simp only [List.flatten_cons, List.flatten_nil, List.append_nil] at arrived
    omega
  omega

/-- The connection of a server when the decoder has returned. -/
def decoded (c : HttpConn) : HttpConn := { c with
  req := (c.req.tryDecode c.input true).msg
  input := (c.req.tryDecode c.input true).buf }

/-- The read callback on a server. -/
theorem callRead_server (server : c.isClient = false) (readcb : c.readcb = true)
    (nonempty : c.input ≠ []) (behind : Bytes) :
    c.callRead cb behind = c.decoded.react cb (c.req.tryDecode c.input true).outcome := by
  have decodes : c.decode behind = ((c.req.tryDecode c.input true).outcome, c.decoded) := by
    rw [decode, if_neg (by simp [server])]
    rfl
  rw [callRead, if_pos ⟨readcb, nonempty⟩, handleRead, decodes]

/-- What a server is after an answer to its request. -/
structure Answered (c c' : HttpConn) : Prop where
  server : c'.isClient = false
  readcb : c'.readcb = c.readcb
  req : c'.req = .cleared
  input : c'.input = c.input.drop c.req.scanned
  stream : c'.seen.stream = c.seen.stream
  calls : c'.seen.calls.map HttpCall.req = c.seen.calls.map HttpCall.req ++ [c.req]

/-- The callback answers a request that is in the buffer. -/
theorem Answers.answered (answers : Answers cb) (server : c.isClient = false)
    (short : c.req.scanned < 2 ^ 31) (fits : c.req.scanned ≤ c.input.length) :
    ∃ c', c.react cb (.ok .complete) = .ok c' ∧ Answered c c' := by
  obtain ⟨resp, own, sends⟩ := answers c.call
  have message : { c.call with resp := resp }.message = c.req.toHttpMsg := by
    rw [HttpConn.message, if_neg (by simp [HttpConn.call, server])]
    rfl
  have bytes : toSize { c.call with resp := resp }.message.getByte = c.req.scanned := by
    rw [message, toSize_getByte short]
  have room : toSize { c.call with resp := resp }.message.getByte ≤
      { c.call with resp := resp }.input.length := bytes.le.trans fits
  obtain ⟨c', sent⟩ := sendEncoded_ok (own.encode c.output).2 room
  have clears := sendEncoded_clears sent
  obtain ⟨log, seen⟩ := clears.seen
  refine ⟨c', sends.trans sent, clears.isClient.trans server, clears.readcb, clears.server server, ?_, ?_, ?_⟩
  · rw [clears.input, bytes]
    rfl
  · rw [seen]
    rfl
  · rw [seen]
    show (c.seen.calls ++ [_]).map HttpCall.req = _
    rw [List.map_append]
    rfl

/-- **The next request has arrived**, and is answered. -/
theorem Serving.answer {i : ℕ} (serving : Serving requests c i) (answers : Answers cb)
    {request : Bytes} {rest : List Bytes} (next : requests.drop i = request :: rest)
    (isRequest : HttpRequest.IsRequest request) (short : request.length < 2 ^ 31)
    (nonempty : c.input ≠ []) (arrived : request.length ≤ c.input.length) :
    ∃ c', c.callRead cb [] = .ok c' ∧ c'.seen.stream = c.seen.stream ∧ Serving requests c' (i + 1) := by
  obtain ⟨future, stream, n, le, resumes⟩ := serving.future
  obtain ⟨taken, dropped, inside⟩ := take_succ_of_drop next
  have left := serving.future_eq stream
  rw [next, List.flatten_cons] at resumes left
  have size := serving.size
  have memory : (c.input ++ future).take c.input.length = c.input := List.take_left
  obtain ⟨outcome, message, -⟩ := resumes.tryDecode_eq le true
  obtain ⟨once, whole⟩ := isRequest.tryDecode_eq rest.flatten (by omega) arrived
  obtain ⟨k, wholeRequest, sizeAt, accepted⟩ := isRequest.whole (by omega)
  obtain ⟨wholeRest, sameSize, -⟩ := wholeRequest.append rest.flatten
  have buf := resumes.buf_eq le wholeRest (by rw [sameSize, sizeAt]; exact arrived)
  rw [memory] at outcome message buf
  rw [once] at outcome
  have complete := settled_complete outcome
  have req := message .complete complete
  rw [whole] at req
  have behind : k ≤ request.length := by
    unfold HttpMsg.sizeAt at sizeAt
    omega
  have total : (request ++ rest.flatten).length = request.length + rest.flatten.length :=
    List.length_append
  have stored : ((request ++ rest.flatten).take c.input.length).length = c.input.length := by
    have length := resumes.length_eq
    rw [List.length_append] at length
    rw [List.length_take]
    omega
  have held : c.decoded.input.length = c.input.length := by
    show (c.req.tryDecode c.input true).buf.length = _
    rw [buf, HttpMsg.length_headOf_append (by omega) (by omega), stored]
  have scanned : c.decoded.req.scanned = request.length := by
    show (c.req.tryDecode c.input true).msg.scanned = _
    rw [req]
    exact isRequest.scanned
  -- The message is passed, and the callback answers.
  obtain ⟨c', ran, answered⟩ := answers.answered (c := c.decoded) serving.server
    (by rw [scanned]; exact short) (by rw [scanned, held]; exact arrived)
  have input : c'.input = rest.flatten.take (c.input.length - request.length) := by
    rw [answered.input, scanned]
    show (c.req.tryDecode c.input true).buf.drop request.length = _
    rw [buf, HttpMsg.drop_headOf (by omega) behind, List.drop_take, List.drop_left]
  have unread : future = rest.flatten.drop (c.input.length - request.length) := by
    rw [left, List.drop_append, List.drop_of_length_le arrived, List.nil_append]
  refine ⟨c', ?_, answered.stream, answered.server, answered.readcb.trans serving.readcb, inside, ?_,
    ?_, future, ?_, 0, Nat.zero_le _, ?_⟩
  · rw [callRead_server serving.server serving.readcb nonempty, complete, ran]
  · rw [answered.calls, taken, List.map_append]
    show c.seen.calls.map HttpCall.req ++ [(c.req.tryDecode c.input true).msg] = _
    rw [serving.calls, req]
    rfl
  · rw [answered.stream, taken, List.flatten_append, List.length_append, input, List.length_take]
    show _ = c.seen.stream.length
    rw [List.length_take] at stored
    simp only [List.flatten_cons, List.flatten_nil, List.append_nil]
    omega
  · rw [answered.stream]
    exact stream
  · rw [answered.req, dropped, input, unread, List.take_append_drop]
    exact .searching (.start _)

/-- **The next request has not arrived**, and is waited for. -/
theorem Serving.wait {i : ℕ} (serving : Serving requests c i) {request : Bytes} {rest : List Bytes}
    (next : requests.drop i = request :: rest) (isRequest : HttpRequest.IsRequest request)
    (short : request.length < 2 ^ 31) (nonempty : c.input ≠ [])
    (missing : c.input.length < request.length) :
    ∃ c', c.callRead cb [] = .ok c' ∧ c'.seen.stream = c.seen.stream ∧ Serving requests c' i := by
  obtain ⟨future, stream, n, le, resumes⟩ := serving.future
  have memory : (c.input ++ future).take c.input.length = c.input := List.take_left
  have behind : (c.input ++ future).drop c.input.length = future := List.drop_left
  obtain ⟨outcome, -, later⟩ := resumes.tryDecode_eq le true
  have whole : (requests.drop i).flatten = request ++ rest.flatten := by rw [next, List.flatten_cons]
  have waits := isRequest.pending rest.flatten (by omega) missing
  rw [memory, whole] at outcome
  have pending : Pending (c.req.tryDecode c.input true).outcome := by
    rw [HttpMsg.pending_iff, outcome, ← HttpMsg.pending_iff]
    exact waits
  rw [memory, behind] at later
  have resumes' := later pending
  -- The buffer is as long as before, and so is what is left.
  have held : (c.req.tryDecode c.input true).buf.length = c.input.length := by
    have before := resumes.length_eq
    have after := resumes'.length_eq
    rw [List.length_append] at before after
    omega
  have kept : ∀ output, Serving requests { c.decoded with output := output } i := fun output =>
    ⟨serving.server, serving.readcb, serving.bounded, serving.calls,
      (congrArg ((requests.take i).flatten.length + ·) held).trans serving.size,
      future, stream, c.input.length, held.ge, resumes'⟩
  rw [callRead_server serving.server serving.readcb nonempty]
  rcases pending with returns | returns
  · rw [returns]
    exact ⟨c.decoded, rfl, rfl, kept c.decoded.output⟩
  · rw [returns]
    refine ⟨c.decoded.send (ascii "HTTP/1.1 100 Continue\n\r\n"), ?_, rfl, kept _⟩
    rw [react, if_neg (by simp [decoded, serving.server])]

/-! ## Readable events -/

/-- Bytes of requests that fit an `int`. -/
def AreRequests (requests : List Bytes) : Prop :=
  ∀ request ∈ requests, HttpRequest.IsRequest request ∧ request.length < 2 ^ 31

/-- **One readable event** answers one request, if one is there. -/
theorem Serving.readable {i : ℕ} (serving : Serving requests c i) (answers : Answers cb)
    (areRequests : AreRequests requests) {bytes : Bytes}
    (received : c.seen.stream ++ bytes <+: requests.flatten) :
    ∃ c', c.readable cb bytes = .ok c' ∧ c'.seen.stream = c.seen.stream ++ bytes ∧
      Serving requests c' (min (i + 1) (completed requests (c.seen.stream ++ bytes).length)) := by
  have filled := serving.receive received
  have size := filled.size
  show ∃ c', (c.receive bytes).callRead cb [] = .ok c' ∧ c'.seen.stream = (c.receive bytes).seen.stream ∧
    Serving requests c' (min (i + 1) (completed requests (c.receive bytes).seen.stream.length))
  by_cases nonempty : (c.receive bytes).input = []
  · -- Nothing is there.
    have none := filled.completed_eq fun request rest next => by
      have member : request ∈ requests := List.mem_of_mem_drop (next ▸ List.mem_cons_self)
      rw [nonempty]
      exact (areRequests request member).1.pos
    rw [none, callRead, if_neg (by simp [nonempty])]
    exact ⟨_, rfl, rfl, filled⟩
  cases next : requests.drop i with
  | nil =>
      -- All requests have been answered, and nothing else was sent.
      have all : requests.take i = requests := by
        have split := List.take_append_drop i requests
        rwa [next, List.append_nil] at split
      have arrived := received.length_le
      rw [all] at size
      have none : (c.receive bytes).input.length = 0 := by
        have stream : (c.receive bytes).seen.stream = c.seen.stream ++ bytes := rfl
        rw [stream] at size
        omega
      exact absurd (List.length_eq_zero_iff.mp none) nonempty
  | cons request rest =>
      have member : request ∈ requests := List.mem_of_mem_drop (next ▸ List.mem_cons_self)
      obtain ⟨isRequest, short⟩ := areRequests request member
      by_cases arrived : request.length ≤ (c.receive bytes).input.length
      · have more : i + 1 ≤ completed requests (c.receive bytes).seen.stream.length := by
          obtain ⟨taken, -, inside⟩ := take_succ_of_drop next
          refine (le_completed_iff _ _ _).mpr ⟨inside, ?_⟩
          rw [taken, List.flatten_append, List.length_append]
          simp only [List.flatten_cons, List.flatten_nil, List.append_nil]
          omega
        rw [min_eq_left more]
        exact filled.answer answers next isRequest short nonempty arrived
      · have none := filled.completed_eq fun other others next' => by
          rw [next] at next'
          rw [← (List.cons.inj next').1]
          exact not_le.mp arrived
        rw [none]
        exact filled.wait next isRequest short nonempty (not_le.mp arrived)

/-- How many requests have arrived with the first so many events. -/
def arrivedWith (requests chunks : List Bytes) (j : ℕ) : ℕ :=
  completed requests (chunks.take j).flatten.length

/-- **Some readable events**: the requests are answered one at a time. -/
theorem serve_serving (answers : Answers cb) (areRequests : AreRequests requests)
    (received : chunks.flatten <+: requests.flatten) :
    ∃ c, (new false).serve cb chunks = .ok c ∧ c.seen.stream = chunks.flatten ∧
      Serving requests c (OneAtATime.served (arrivedWith requests chunks) chunks.length) := by
  induction chunks using List.reverseRecOn with
  | nil => exact ⟨new false, rfl, rfl, serving_new requests⟩
  | append_singleton chunks chunk ih =>
      have whole : (chunks ++ [chunk]).flatten = chunks.flatten ++ chunk := by simp
      rw [whole] at received
      obtain ⟨c, ran, stream, serving⟩ := ih ((List.prefix_append _ _).trans received)
      rw [← stream] at received
      obtain ⟨c', ran', stream', serving'⟩ := serving.readable answers areRequests received
      have before : OneAtATime.served (arrivedWith requests (chunks ++ [chunk])) chunks.length =
          OneAtATime.served (arrivedWith requests chunks) chunks.length :=
        OneAtATime.served_congr fun j le => by
          rw [arrivedWith, arrivedWith, List.take_append_of_le_length le]
      have last : arrivedWith requests (chunks ++ [chunk]) (chunks.length + 1) =
          completed requests (c.seen.stream ++ chunk).length := by
        rw [arrivedWith, List.take_of_length_le (by simp), whole, stream]
      refine ⟨c', ?_, by rw [stream', stream, whole], ?_⟩
      · rw [serve, List.foldlM_append]
        have start : chunks.foldlM (HttpConn.readable cb) (new false) = .ok c := ran
        rw [start]
        show [chunk].foldlM (HttpConn.readable cb) c = _
        rw [List.foldlM_cons, ran']
        rfl
      · rw [List.length_append, List.length_singleton, OneAtATime.served, before, last]
        exact serving'

/-! ## Pacing -/

/-- The callback has been invoked for every request that has arrived, in order. -/
def AllInvoked (cb : HttpCallBack) (requests chunks : List Bytes) : Prop :=
  ∃ c, (new false).serve cb chunks = .ok c ∧ c.seen.calls.map HttpCall.req =
    (requests.take (completed requests chunks.flatten.length)).map HttpRequest.read

/-- No number of last events has brought more requests than there are events. -/
def Paced (requests chunks : List Bytes) : Prop :=
  ∀ j ≤ chunks.length, completed requests chunks.flatten.length ≤
    completed requests (chunks.take j).flatten.length + (chunks.length - j)

/-- **The callback has been invoked for every request exactly if the requests are paced.** -/
theorem pipelined_iff (answers : Answers cb) (areRequests : AreRequests requests)
    (received : chunks.flatten <+: requests.flatten) :
    AllInvoked cb requests chunks ↔ Paced requests chunks := by
  obtain ⟨c, ran, stream, serving⟩ := serve_serving answers areRequests received
  have last : arrivedWith requests chunks chunks.length =
      completed requests chunks.flatten.length := by
    rw [arrivedWith, List.take_length]
  have none : arrivedWith requests chunks 0 = 0 :=
    completed_zero fun request member =>
      List.ne_nil_of_length_pos (areRequests request member).1.pos
  have paced := OneAtATime.served_eq_iff none chunks.length
  rw [last] at paced
  refine Iff.trans ?_ paced
  have inside : completed requests chunks.flatten.length ≤ requests.length :=
    ((le_completed_iff _ _ _).mp le_rfl).1
  constructor
  · rintro ⟨c', ran', calls⟩
    obtain rfl := Except.ok.inj (ran.symm.trans ran')
    rw [serving.calls] at calls
    have lengths := congrArg List.length calls
    rw [List.length_map, List.length_map, List.length_take, List.length_take,
      Nat.min_eq_left serving.bounded, Nat.min_eq_left inside] at lengths
    exact lengths
  · intro same
    exact ⟨c, ran, by rw [serving.calls, same]⟩

/-- A callback that sends the response as it is. -/
def answerAtOnce : HttpCallBack := HttpConn.sendResponse

theorem answers_atOnce : Answers answerAtOnce := fun c => ⟨c.resp, c.resp, rfl⟩

theorem areRequests_two : AreRequests [rootGet, rootGet] := by
  have one : HttpRequest.IsRequest rootGet := ⟨by decide +kernel, by decide +kernel⟩
  have short : rootGet.length < 2 ^ 31 := by decide +kernel
  intro request member
  have same : request = rootGet := by simpa using member
  rw [same]
  exact ⟨one, short⟩

/-- Two requests, with an event each. -/
theorem pipelined_iff_two : AllInvoked answerAtOnce [rootGet, rootGet] [rootGet, rootGet] :=
  (pipelined_iff answers_atOnce areRequests_two List.prefix_rfl).mpr (by
    unfold Paced
    decide +kernel)

/-- Two requests in one event. -/
theorem second_request_waits : ¬ ∀ (cb : HttpCallBack) (requests chunks : List Bytes), Answers cb →
    AreRequests requests → chunks.flatten <+: requests.flatten → AllInvoked cb requests chunks := by
  intro always
  obtain ⟨c, ran, calls⟩ := always answerAtOnce [rootGet, rootGet] [rootGet ++ rootGet]
    answers_atOnce areRequests_two (by simp)
  have once : ((new false).serve answerAtOnce [rootGet ++ rootGet]).toOption.map
      (·.seen.calls.length) = some 1 := by decide +kernel
  have both : completed [rootGet, rootGet] [rootGet ++ rootGet].flatten.length = 2 := by
    decide +kernel
  rw [ran] at once
  rw [both] at calls
  have lengths := congrArg List.length calls
  have single : c.seen.calls.length = 1 := Option.some_inj.mp once
  rw [List.length_map, single] at lengths
  exact absurd lengths (by decide)

end HttpConn

end Handy
