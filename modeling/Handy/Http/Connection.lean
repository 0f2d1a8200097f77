import Handy.Http.Wire
import Handy.Lib.LabelledRun

/-!
# HTTP connections

`HttpConnPtr`, which makes a TCP connection one of HTTP messages. The read callback that
`onHttpMsg` installs decodes one message and calls the HTTP callback on it; the message stays in
`input_`, and in its context, until the answer is sent.

Of the TCP connection there is what HTTP touches. Bytes are added to `input_` by the loop of
`TcpConn::handleRead`, and the read callback is called when that loop has found nothing more to
read, or by `cleanup`. User code runs in the HTTP callback or at any other time, and `output` is
all that was put into `output_`, whether or not the socket has taken it.

A step is one call of `handle`. The calls of user code within a callback are steps of their own,
so every order in which reads, callbacks, answers and the end of the connection can come is a run.

While the answers come in time, no message is passed twice (`HttpConn.passed_once`). A message that
is still in `input_` when the read callback is called again is passed again
(`late_answer_passes_twice`).
-/

set_option autoImplicit false

namespace Handy

/-- A part of the byte stream of a connection. -/
structure Span where
  start : ℕ
  size : ℕ
  deriving DecidableEq, Repr

/-- A call of the HTTP callback: the bytes of its message, whether it had been called on them
before, and what `getRequest()` and `getResponse()` are. -/
structure HttpCall where
  span : Span
  again : Bool
  req : HttpRequest
  resp : HttpResponse

/-- Observations: the bytes that were read, how many of them were removed from `input_`, the calls
of the HTTP callback, whether the last one waits for its answer, the bytes that `clearData` has
removed, and those that were encoded for each answer. -/
structure HttpRecord where
  stream : Bytes
  consumed : ℕ
  calls : List HttpCall
  unanswered : Bool
  removed : List Span
  sent : List Bytes

/-- A TCP connection with its `HttpContext`. -/
structure HttpConn where
  isClient : Bool
  readcb : Bool
  /-- `close()` has been called. -/
  closing : Bool
  input : Bytes
  output : Buffer
  req : HttpRequest
  resp : HttpResponse
  seen : HttpRecord

/-- What stops a connection. -/
inductive HttpFault where
  | decode (fault : DecodeFault)
  | consumeUnderflow
  deriving DecidableEq, Repr

/-- The HTTP callback, with all that it does until it returns. -/
abbrev HttpCallBack := HttpConn → Except HttpFault HttpConn

/-- What `file::getContent` comes to: `ENOENT`, another error with its message, or the contents.
With these there are the bytes found in their place when the string that held them is gone. -/
inductive FileContent where
  | absent
  | failed (msg : Bytes)
  | content (cont freed : Bytes) (same : freed.length = cont.length)

namespace HttpConn

/-- A connection whose read callback was installed by `onHttpMsg`. -/
def new (isClient : Bool) : HttpConn where
  isClient := isClient
  readcb := true
  closing := false
  input := []
  output := .new
  req := .cleared
  resp := .cleared
  seen := ⟨[], 0, [], false, [], []⟩

/-- The message that is being received. -/
def message (c : HttpConn) : HttpMsg := if c.isClient then c.resp.toHttpMsg else c.req.toHttpMsg

/-! ## Sending -/

/-- `getInput().consume(len)`. -/
def consumeInput (c : HttpConn) (len : ℤ) : Except HttpFault HttpConn :=
  if toSize len ≤ c.input.length then
    .ok { c with
      input := c.input.drop (toSize len)
      seen := { c.seen with
        consumed := c.seen.consumed + toSize len
        unanswered := false
        removed := c.seen.removed ++ [⟨c.seen.consumed, toSize len⟩] } }
  else .error .consumeUnderflow

/-- `clearData`. -/
def clearData (c : HttpConn) : Except HttpFault HttpConn :=
  if c.isClient then (c.consumeInput c.resp.getByte).map fun c => { c with resp := .cleared }
  else (c.consumeInput c.req.getByte).map fun c => { c with req := .cleared }

/-- What was encoded is in `output_`, from where `sendOutput` sends it, and `clearData` runs. -/
def sendEncoded (c : HttpConn) (output : Buffer) : Except HttpFault HttpConn :=
  { c with
    output := output
    seen := { c.seen with
      sent := c.seen.sent ++ [output.contents.drop c.output.size] } }.clearData

/-- `sendRequest(HttpRequest &)`. -/
def sendRequestOf (c : HttpConn) (req : HttpRequest) : Except HttpFault HttpConn :=
  c.sendEncoded (req.encode c.output).2

/-- `sendResponse(HttpResponse &)`. -/
def sendResponseOf (c : HttpConn) (resp : HttpResponse) : Except HttpFault HttpConn :=
  c.sendEncoded (resp.encode c.output).2

/-- `sendRequest()`. -/
def sendRequest (c : HttpConn) : Except HttpFault HttpConn := c.sendRequestOf c.req

/-- `sendResponse()`. -/
def sendResponse (c : HttpConn) : Except HttpFault HttpConn := c.sendResponseOf c.resp

/-- `sendFile`, with the answer of `file::getContent`. A view of the file is left in the response
of a server, where `clearData` does not clear it. -/
def sendFile (c : HttpConn) : FileContent → Except HttpFault HttpConn
  | .absent => { c with resp := c.resp.setNotFound }.sendResponse
  | .failed msg => { c with resp := c.resp.setStatus 500 msg }.sendResponse
  | .content cont freed _ =>
      ({ c with resp := { c.resp with body2 := cont } }.sendResponse).map fun c : HttpConn =>
        if c.isClient then c else { c with resp := { c.resp with body2 := freed } }

/-- `tcp->close()`. -/
def close (c : HttpConn) : HttpConn := { c with closing := true }

/-- `tcp->send(const char *)`. -/
def send (c : HttpConn) (bytes : Bytes) : HttpConn := { c with output := c.output.append bytes }

/-! ## Receiving -/

/-- The HTTP callback is about to be called. -/
def call (c : HttpConn) : HttpConn := { c with
  seen := { c.seen with
    calls := c.seen.calls ++
      [⟨⟨c.seen.consumed, c.message.scanned⟩, c.seen.unanswered, c.req, c.resp⟩]
    unanswered := true } }

/-- What the answer of the decoder leads to. A client does not look at `Continue100`. -/
def react (cb : HttpCallBack) (c : HttpConn) :
    Except DecodeFault Result → Except HttpFault HttpConn
  | .error fault => .error (.decode fault)
  | .ok .error => .ok c.close
  | .ok .continue100 =>
      .ok (if c.isClient then c else c.send (ascii "HTTP/1.1 100 Continue\n\r\n"))
  | .ok .complete => cb c.call
  | .ok .notComplete => .ok c

/-- The message that is being received is decoded, where `behind` is the memory behind `input_`. -/
def decode (c : HttpConn) (behind : Bytes) : Except DecodeFault Result × HttpConn :=
  if c.isClient then
    let d := c.resp.tryDecode c.input behind true
    (d.outcome, { c with resp := d.msg, input := d.buf })
  else
    let d := c.req.tryDecode c.input true
    (d.outcome, { c with req := d.msg, input := d.buf })

/-- `HttpConnPtr::handleRead`. -/
def handleRead (cb : HttpCallBack) (behind : Bytes) (c : HttpConn) : Except HttpFault HttpConn :=
  let (outcome, c) := c.decode behind
  c.react cb outcome

/-- `if (readcb_ && input_.size()) readcb_(con)`, in `TcpConn::handleRead` and in `cleanup`. -/
def callRead (cb : HttpCallBack) (behind : Bytes) (c : HttpConn) : Except HttpFault HttpConn :=
  if c.readcb = true ∧ c.input ≠ [] then c.handleRead cb behind else .ok c

/-- `TcpConn::handleRead` adds what it has read to `input_`. -/
def receive (c : HttpConn) (bytes : Bytes) : HttpConn := { c with
  input := c.input ++ bytes
  seen := { c.seen with stream := c.seen.stream ++ bytes } }

/-- `TcpConn::handleRead` on a server, from the readable event to `EAGAIN`: what it has read, and
the call of the read callback. -/
def readable (cb : HttpCallBack) (c : HttpConn) (bytes : Bytes) : Except HttpFault HttpConn :=
  (c.receive bytes).callRead cb []

/-- Some readable events, one after the other. -/
def serve (cb : HttpCallBack) (c : HttpConn) (chunks : List Bytes) : Except HttpFault HttpConn :=
  chunks.foldlM (readable cb) c

end HttpConn

/-! ## Steps -/

/-- What can happen to a connection. -/
inductive HttpEvent where
  | receive (bytes : Bytes)
  /-- The read callback is called, and the HTTP callback, if it is called, goes on in the events
  that follow. -/
  | callRead (behind : Bytes)
  /-- User code fills the request that a client sends. -/
  | fillRequest (req : HttpRequest)
  /-- User code fills the response that a server sends. -/
  | fillResponse (resp : HttpResponse)
  /-- User code sends a request, the one of the connection or one of its own. -/
  | sendRequest (req : Option HttpRequest)
  | sendResponse (resp : Option HttpResponse)
  | sendFile (file : FileContent)
  | close
  /-- `cleanup` unsets the read callback. -/
  | detach

def HttpEvent.reads : HttpEvent → Bool
  | .callRead _ => true
  | _ => false

/-- User code sends a request or a response. -/
def HttpEvent.sends : HttpEvent → Bool
  | .sendRequest _ | .sendResponse _ | .sendFile _ => true
  | _ => false

namespace HttpConn

/-- One event. -/
def handle (c : HttpConn) : HttpEvent → Except HttpFault HttpConn
  | .receive bytes => .ok (c.receive bytes)
  | .callRead behind => c.callRead .ok behind
  | .fillRequest req => .ok (if c.isClient then { c with req := req } else c)
  | .fillResponse resp => .ok (if c.isClient then c else { c with resp := resp })
  | .sendRequest req => c.sendRequestOf (req.getD c.req)
  | .sendResponse resp => c.sendResponseOf (resp.getD c.resp)
  | .sendFile file => c.sendFile file
  | .close => .ok c.close
  | .detach => .ok { c with readcb := false }

end HttpConn

/-- The steps of a connection. -/
def HttpStep (c : HttpConn) (event : HttpEvent) (c' : HttpConn) : Prop := c.handle event = .ok c'

namespace HttpConn

variable {c c' : HttpConn}

/-! ## What a step does -/

/-- The message that was being received has been removed from `input_` and cleared. -/
structure Clears (c c' : HttpConn) : Prop where
  fits : toSize c.message.getByte ≤ c.input.length
  isClient : c'.isClient = c.isClient
  readcb : c'.readcb = c.readcb
  client : c.isClient = true → c'.resp = .cleared
  server : c.isClient = false → c'.req = .cleared
  input : c'.input = c.input.drop (toSize c.message.getByte)
  seen : ∃ sent, c'.seen = { c.seen with
    consumed := c.seen.consumed + toSize c.message.getByte
    unanswered := false
    removed := c.seen.removed ++ [⟨c.seen.consumed, toSize c.message.getByte⟩]
    sent := sent }

theorem clearData_clears (cleared : c.clearData = .ok c') : Clears c c' := by
  cases side : c.isClient with
  | true =>
      have same : c.message = c.resp.toHttpMsg := by simp [message, side]
      simp only [clearData, consumeInput, side, if_true] at cleared
      split_ifs at cleared with fits
      · cases cleared
        exact ⟨by rwa [same], side.symm, rfl, fun _ => rfl, by simp [side], by rw [same], by simp [same]⟩
      · cases cleared
  | false =>
      have same : c.message = c.req.toHttpMsg := by simp [message, side]
      simp only [clearData, consumeInput, side, Bool.false_eq_true, if_false] at cleared
      split_ifs at cleared with fits
      · cases cleared
        exact ⟨by rwa [same], side.symm, rfl, by simp [side], fun _ => rfl, by rw [same], by simp [same]⟩
      · cases cleared

/-- What happens before the message is cleared does not change how long it is. -/
theorem Clears.of_aside {c₁ : HttpConn} (clears : Clears c₁ c') (isClient : c₁.isClient = c.isClient)
    (readcb : c₁.readcb = c.readcb) (bytes : c₁.message.getByte = c.message.getByte)
    (input : c₁.input = c.input) (seen : ∃ sent, c₁.seen = { c.seen with sent := sent }) :
    Clears c c' := by
  obtain ⟨sent, same⟩ := seen
  obtain ⟨sent', cleared⟩ := clears.seen
  refine ⟨?_, clears.isClient.trans isClient, clears.readcb.trans readcb, ?_, ?_, ?_, sent', ?_⟩
  · rw [← bytes, ← input]
    exact clears.fits
  · rw [← isClient]
    exact clears.client
  · rw [← isClient]
    exact clears.server
  · rw [clears.input, input, bytes]
  · rw [cleared, same, bytes]

theorem sendEncoded_clears {output : Buffer} (sent : c.sendEncoded output = .ok c') : Clears c c' :=
  (clearData_clears sent).of_aside rfl rfl rfl rfl ⟨_, rfl⟩

/-- The response is filled before it is sent. -/
theorem sendResponse_clears {resp : HttpResponse} (scanned : resp.scanned = c.resp.scanned)
    (sent : { c with resp := resp }.sendResponse = .ok c') : Clears c c' := by
  refine (sendEncoded_clears sent).of_aside rfl rfl ?_ rfl ⟨_, rfl⟩
  cases side : c.isClient <;> simp [message, side, HttpMsg.getByte, scanned]

theorem sendFile_clears {file : FileContent} (sent : c.sendFile file = .ok c') : Clears c c' := by
  cases file with
  | absent =>
      have kept : c.resp.setNotFound.scanned = c.resp.scanned := rfl
      exact sendResponse_clears kept sent
  | failed msg =>
      have kept : (c.resp.setStatus 500 msg).scanned = c.resp.scanned := rfl
      exact sendResponse_clears kept sent
  | content cont freed same =>
      simp only [sendFile] at sent
      cases answered : { c with resp := { c.resp with body2 := cont } }.sendResponse with
      | error fault =>
          rw [answered] at sent
          cases sent
      | ok c₁ =>
          rw [answered] at sent
          have kept : { c.resp with body2 := cont }.scanned = c.resp.scanned := rfl
          have clears : Clears c c₁ := sendResponse_clears kept answered
          simp only [Except.map] at sent
          split_ifs at sent with side
          · exact Except.ok.inj sent ▸ clears
          · cases sent
            exact { clears with client := fun client => absurd (clears.isClient.trans client) side }

/-- Nothing is received, decoded or cleared. -/
structure Aside (c c' : HttpConn) : Prop where
  isClient : c'.isClient = c.isClient
  client : c.isClient = true → c'.resp = c.resp
  server : c.isClient = false → c'.req = c.req
  input : c'.input = c.input
  seen : c'.seen = c.seen

theorem Aside.message (aside : Aside c c') : c'.message = c.message := by
  cases side : c.isClient with
  | true => simp [HttpConn.message, aside.isClient, side, aside.client side]
  | false => simp [HttpConn.message, aside.isClient, side, aside.server side]

/-- The read callback is called, and the decoder returns. -/
structure Reads (c : HttpConn) (behind : Bytes) (r : Result) (c₁ : HttpConn) : Prop where
  readcb : c.readcb = true
  input : c.input ≠ []
  decodes : c.decode behind = (.ok r, c₁)

/-- **What a step does.** -/
inductive Effect (c : HttpConn) : HttpEvent → HttpConn → Prop where
  | receive (bytes : Bytes) : Effect c (.receive bytes) (c.receive bytes)
  | aside {event : HttpEvent} {c' : HttpConn} (quiet : event.sends = false) (aside : Aside c c') :
      Effect c event c'
  | clears {event : HttpEvent} {c' : HttpConn} (sends : event.sends = true) (clears : Clears c c') :
      Effect c event c'
  | reads {behind : Bytes} {r : Result} {c₁ c' : HttpConn} (reads : Reads c behind r c₁)
      (other : r ≠ .complete) (aside : Aside c₁ c') : Effect c (.callRead behind) c'
  | calls {behind : Bytes} {c₁ : HttpConn} (reads : Reads c behind .complete c₁) :
      Effect c (.callRead behind) c₁.call

theorem Aside.refl (c : HttpConn) : Aside c c := ⟨rfl, fun _ => rfl, fun _ => rfl, rfl, rfl⟩

theorem callRead_effect {behind : Bytes} (ran : c.callRead .ok behind = .ok c') :
    Effect c (.callRead behind) c' := by
  unfold callRead at ran
  split_ifs at ran with called
  · obtain ⟨readcb, input⟩ := called
    rcases decodes : c.decode behind with ⟨outcome, c₁⟩
    simp only [handleRead, decodes] at ran
    cases outcome with
    | error fault => cases ran
    | ok r =>
        have reads : Reads c behind r c₁ := ⟨readcb, input, decodes⟩
        cases r with
        | error =>
            cases ran
            exact .reads reads (by simp) ⟨rfl, fun _ => rfl, fun _ => rfl, rfl, rfl⟩
        | complete =>
            cases ran
            exact .calls reads
        | notComplete =>
            cases ran
            exact .reads reads (by simp) (.refl _)
        | continue100 =>
            cases ran
            refine .reads reads (by simp) ?_
            split_ifs
            · exact .refl _
            · exact ⟨rfl, fun _ => rfl, fun _ => rfl, rfl, rfl⟩
  · cases ran
    exact .aside rfl (.refl _)

/-- **Every step is one of these.** -/
theorem step_effect {event : HttpEvent} (step : HttpStep c event c') : Effect c event c' := by
  unfold HttpStep handle at step
  cases event with
  | receive bytes =>
      cases step
      exact .receive bytes
  | callRead behind => exact callRead_effect step
  | fillRequest req =>
      cases step
      refine .aside rfl ?_
      split_ifs with side
      · exact ⟨rfl, fun _ => rfl, fun server => absurd side (by simp [server]), rfl, rfl⟩
      · exact .refl _
  | fillResponse resp =>
      cases step
      refine .aside rfl ?_
      split_ifs with side
      · exact .refl _
      · exact ⟨rfl, fun client => absurd client side, fun _ => rfl, rfl, rfl⟩
  | sendRequest req => exact .clears rfl (sendEncoded_clears step)
  | sendResponse resp => exact .clears rfl (sendEncoded_clears step)
  | sendFile file => exact .clears rfl (sendFile_clears step)
  | close =>
      cases step
      exact .aside rfl ⟨rfl, fun _ => rfl, fun _ => rfl, rfl, rfl⟩
  | detach =>
      cases step
      exact .aside rfl ⟨rfl, fun _ => rfl, fun _ => rfl, rfl, rfl⟩

/-! ## Messages are passed once -/

/-- The one call's message ends before the later one's begins. -/
def Apart (one later : HttpCall) : Prop :=
  one.span.start + one.span.size ≤ later.span.start ∧ 0 < one.span.size

/-- The messages passed lie in what was removed from `input_`, but for the one that waits for its
answer. -/
structure Ledger (c : HttpConn) (answered : List HttpCall) : Prop where
  apart : answered.Pairwise Apart
  removed : ∀ call ∈ answered, call.span.start + call.span.size ≤ c.seen.consumed ∧ 0 < call.span.size
  calls : (c.seen.unanswered = false ∧ c.seen.calls = answered) ∨
    c.seen.unanswered = true ∧ ∃ last, c.seen.calls = answered ++ [last] ∧
      last.span = ⟨c.seen.consumed, c.message.scanned⟩

/-- The event does not call the HTTP callback on a message that waits for its answer, and it does
not remove a message whose size is not an `int`. -/
def InTime (c : HttpConn) (event : HttpEvent) : Prop :=
  c.seen.unanswered = true →
    (event.reads = true → c.readcb = false ∨ c.input = []) ∧
    (event.sends = true → 0 < c.message.scanned ∧ c.message.scanned < 2 ^ 31)

instance (c : HttpConn) (event : HttpEvent) : Decidable (c.InTime event) :=
  inferInstanceAs (Decidable (_ → _))

theorem toSize_getByte {m : HttpMsg} (short : m.scanned < 2 ^ 31) : toSize m.getByte = m.scanned := by
  rw [HttpMsg.getByte, toInt32_eq short, toSize]
  omega

/-- Decoding is not seen in the record. -/
theorem decode_seen (c : HttpConn) (behind : Bytes) : (c.decode behind).2.seen = c.seen := by
  unfold decode
  split_ifs <;> rfl

theorem Reads.seen {behind : Bytes} {r : Result} {c₁ : HttpConn} (reads : Reads c behind r c₁) :
    c₁.seen = c.seen := by
  have kept := decode_seen c behind
  rwa [reads.decodes] at kept

/-- **One step keeps the ledger.** -/
theorem Ledger.step {answered : List HttpCall} {event : HttpEvent} (ledger : Ledger c answered)
    (inTime : c.InTime event) (effect : Effect c event c') : ∃ answered', Ledger c' answered' := by
  cases effect with
  | receive bytes => exact ⟨answered, ledger.apart, ledger.removed, ledger.calls⟩
  | aside quiet aside =>
      refine ⟨answered, ledger.apart, ?_, ?_⟩
      · rw [aside.seen]
        exact ledger.removed
      · rw [aside.seen, aside.message]
        exact ledger.calls
  | clears sends clears =>
      obtain ⟨sent, seen⟩ := clears.seen
      rcases ledger.calls with ⟨-, calls⟩ | ⟨unanswered, last, calls, span⟩
      · refine ⟨answered, ledger.apart, fun call member => ?_, .inl ⟨by rw [seen], by rw [seen, calls]⟩⟩
        obtain ⟨inside, positive⟩ := ledger.removed call member
        rw [seen]
        exact ⟨inside.trans (Nat.le_add_right _ _), positive⟩
      · -- The message that was passed last is removed.
        obtain ⟨positive, short⟩ := (inTime unanswered).2 sends
        rw [toSize_getByte short] at seen
        refine ⟨answered ++ [last], ?_, ?_, .inl ⟨by rw [seen], by rw [seen, calls]⟩⟩
        · refine List.pairwise_append.mpr ⟨ledger.apart, List.pairwise_singleton _ _, ?_⟩
          intro call member other isLast
          rw [List.mem_singleton.mp isLast]
          refine ⟨?_, (ledger.removed call member).2⟩
          rw [span]
          exact (ledger.removed call member).1
        · intro call member
          rw [seen]
          rcases List.mem_append.mp member with earlier | isLast
          · obtain ⟨inside, long⟩ := ledger.removed call earlier
            exact ⟨inside.trans (Nat.le_add_right _ _), long⟩
          · rw [List.mem_singleton.mp isLast, span]
            exact ⟨le_rfl, positive⟩
  | reads reads other aside =>
      have quiet : c.seen.unanswered = false := by
        refine Bool.eq_false_iff.mpr fun unanswered => ?_
        rcases (inTime unanswered).1 rfl with unset | empty
        · exact absurd reads.readcb (by simp [unset])
        · exact reads.input empty
      have seen : c'.seen = c.seen := aside.seen.trans reads.seen
      rcases ledger.calls with ⟨-, calls⟩ | ⟨unanswered, -⟩
      · refine ⟨answered, ledger.apart, ?_, .inl ⟨by rw [seen, quiet], by rw [seen, calls]⟩⟩
        rw [seen]
        exact ledger.removed
      · exact absurd unanswered (by simp [quiet])
  | @calls behind c₁ reads =>
      rcases ledger.calls with ⟨quiet, calls⟩ | ⟨unanswered, -⟩
      · have logged : c₁.call.seen.calls = answered ++
            [⟨⟨c₁.seen.consumed, c₁.message.scanned⟩, c₁.seen.unanswered, c₁.req, c₁.resp⟩] := by
          rw [call, reads.seen, calls]
        refine ⟨answered, ledger.apart, ?_, .inr ⟨rfl, _, logged, rfl⟩⟩
        show ∀ call ∈ answered, _ ≤ c₁.seen.consumed ∧ _
        rw [reads.seen]
        exact ledger.removed
      · rcases (inTime unanswered).1 rfl with unset | empty
        · exact absurd reads.readcb (by simp [unset])
        · exact absurd empty reads.input

theorem Ledger.passed_apart {answered : List HttpCall} (ledger : Ledger c answered) :
    c.seen.calls.Pairwise Apart := by
  rcases ledger.calls with ⟨-, calls⟩ | ⟨-, last, calls, span⟩
  · rw [calls]
    exact ledger.apart
  · rw [calls]
    refine List.pairwise_append.mpr ⟨ledger.apart, List.pairwise_singleton _ _, ?_⟩
    intro call member other isLast
    rw [List.mem_singleton.mp isLast, Apart, span]
    exact ledger.removed call member

/-- **No message is passed twice** in a run in which answers come before the read callback is called
again: of two calls of the HTTP callback, the message of the later one begins where that of the
earlier one has ended. -/
theorem passed_once {isClient : Bool} {events : List HttpEvent}
    (run : LabelledRun (fun c event c' => HttpStep c event c' ∧ c.InTime event) (new isClient) events c) :
    c.seen.calls.Pairwise Apart := by
  have start : Ledger (new isClient) [] := ⟨.nil, by simp, .inl ⟨rfl, rfl⟩⟩
  obtain ⟨answered, ledger⟩ := run.invariant (fun c => ∃ answered, Ledger c answered)
    (fun _ _ _ ⟨_, ledger⟩ taken => ledger.step taken.2 (step_effect taken.1)) ⟨[], start⟩
  exact ledger.passed_apart

/-! ## Runs on given events -/

/-- Some events, one after the other, as long as they are allowed and nothing stops the
connection. -/
def execute (allowed : HttpConn → HttpEvent → Prop) [∀ c event, Decidable (allowed c event)]
    (c : HttpConn) : List HttpEvent → Option HttpConn
  | [] => some c
  | event :: rest =>
      if allowed c event then
        match c.handle event with
        | .ok c' => execute allowed c' rest
        | .error _ => none
      else none

theorem execute_run {allowed : HttpConn → HttpEvent → Prop} [∀ c event, Decidable (allowed c event)]
    {events : List HttpEvent} (ran : c.execute allowed events = some c') :
    LabelledRun (fun c event c' => HttpStep c event c' ∧ allowed c event) c events c' := by
  induction events generalizing c with
  | nil =>
      cases ran
      exact .refl _
  | cons event rest ih =>
      unfold execute at ran
      split_ifs at ran with permitted
      cases first : c.handle event with
      | error fault =>
          rw [first] at ran
          cases ran
      | ok c₁ =>
          rw [first] at ran
          exact .cons ⟨first, permitted⟩ (ih ran)

end HttpConn

/-- A request of 18 bytes. -/
def rootGet : Bytes := ascii "GET / HTTP/1.1\r\n\r\n"

/-- Two requests, each answered before the next one arrives. -/
def answeredInTime : List HttpEvent :=
  [.receive rootGet, .callRead [], .sendResponse none, .receive rootGet, .callRead []]

theorem passed_once_answered : ∃ c, (HttpConn.new false).execute HttpConn.InTime answeredInTime = some c ∧
    c.seen.calls.map (·.span) = [⟨0, 18⟩, ⟨18, 18⟩] ∧ c.seen.calls.Pairwise HttpConn.Apart := by
  have spans : ((HttpConn.new false).execute HttpConn.InTime answeredInTime).map
      (fun c => c.seen.calls.map (·.span)) = some [⟨0, 18⟩, ⟨18, 18⟩] := by decide +kernel
  obtain ⟨c, ran, calls⟩ := Option.map_eq_some_iff.mp spans
  exact ⟨c, ran, calls, HttpConn.passed_once (HttpConn.execute_run ran)⟩

/-- A request whose answer is still to come when another byte arrives. -/
def answeredLate : List HttpEvent :=
  [.receive rootGet, .callRead [], .receive [0x47], .callRead []]

/-- **The message is passed again.** -/
theorem late_answer_passes_twice : ∃ c, LabelledRun HttpStep (.new false) answeredLate c ∧
    c.seen.calls.map (·.span) = [⟨0, 18⟩, ⟨0, 18⟩] ∧ ¬ c.seen.calls.Pairwise HttpConn.Apart := by
  have spans : ((HttpConn.new false).execute (fun _ _ => True) answeredLate).map
      (fun c => c.seen.calls.map (·.span)) = some [⟨0, 18⟩, ⟨0, 18⟩] := by decide +kernel
  obtain ⟨c, ran, calls⟩ := Option.map_eq_some_iff.mp spans
  refine ⟨c, (HttpConn.execute_run ran).mono fun _ _ _ _ taken => taken.1, calls, fun apart => ?_⟩
  rcases shape : c.seen.calls with _ | ⟨one, _ | ⟨later, rest⟩⟩
  all_goals
    rw [shape] at calls
    simp only [List.map_nil, List.map_cons, List.cons.injEq, reduceCtorEq, List.nil_eq, and_false] at calls
  rw [shape] at apart
  have ends := (List.rel_of_pairwise_cons apart List.mem_cons_self).1
  rw [calls.1, calls.2.1] at ends
  exact absurd ends (by decide)

end Handy
