import Handy.Http.Connection

/-!
# Answers on one connection

A server whose handler fills the response of the connection and sends it, or sends a file. The
response is one object for all requests of the connection, and `clearData` clears the request
only. What a handler finds in the response is what the handlers before it have left there: the
status and its word, the headers, both bodies, and also the version, which `encode` prints. The
answers are those to requests on connections of their own, and every handler finds what it may fill
as it was at first, exactly if every request but the last leaves it so and no version that was left
shows (`HttpConn.served_alone_iff`).
-/

set_option autoImplicit false

namespace Handy

/-! ## Handlers -/

/-- What a handler can set in a response. -/
structure Filling where
  version : Bytes
  status : ℤ
  statusWord : Bytes
  headers : StringMap
  body : Bytes
  body2 : Bytes

def HttpResponse.filling (resp : HttpResponse) : Filling :=
  ⟨resp.version, resp.status, resp.statusWord, resp.headers, resp.body, resp.body2⟩

def HttpResponse.filled (resp : HttpResponse) (filling : Filling) : HttpResponse := { resp with
  version := filling.version
  status := filling.status
  statusWord := filling.statusWord
  headers := filling.headers
  body := filling.body
  body2 := filling.body2 }

namespace Filling

/-- What is in a response that has been cleared. -/
def fresh : Filling := HttpResponse.cleared.filling

/-- What is in a response that has been cleared, but for the version. -/
def freshWith (version : Bytes) : Filling := { fresh with version := version }

/-- Status, headers and bodies are those of a response that has been cleared. -/
def Cleared (filling : Filling) : Prop := filling = freshWith filling.version

/-- The bytes that are sent. -/
def bytes (filling : Filling) : Bytes :=
  (HttpResponse.cleared.filled filling).startLine ++ (HttpResponse.cleared.filled filling).wireRest

end Filling

/-- `setStatus`, on what a handler can set. -/
def Filling.setStatus (filling : Filling) (st : ℤ) (msg : Bytes) : Filling :=
  { filling with status := st, statusWord := msg, body := msg }

namespace FileContent

/-- What `sendFile` sends. -/
def answer : FileContent → Filling → Filling
  | .absent, filling => filling.setStatus 404 (ascii "Not Found")
  | .failed msg, filling => filling.setStatus 500 msg
  | .content cont _ _, filling => { filling with body2 := cont }

/-- What `sendFile` leaves in the response of a server. -/
def leaves : FileContent → Filling → Filling
  | .absent, filling => filling.setStatus 404 (ascii "Not Found")
  | .failed msg, filling => filling.setStatus 500 msg
  | .content _ freed _, filling => { filling with body2 := freed }

end FileContent

/-- A handler: how it fills the response, and the file that it sends, if it does not send the
response. -/
structure Handler where
  fill : HttpRequest → Filling → Filling
  file : HttpRequest → Option FileContent

namespace Handler

/-- The HTTP callback. -/
def callBack (h : Handler) : HttpCallBack := fun c =>
  let c := { c with resp := c.resp.filled (h.fill c.req c.resp.filling) }
  match h.file c.req with
  | none => c.sendResponse
  | some file => c.sendFile file

/-- What is sent in answer to a request, when a filling was found in the response. -/
def answer (h : Handler) (req : HttpRequest) (filling : Filling) : Filling :=
  match h.file req with
  | none => h.fill req filling
  | some file => file.answer (h.fill req filling)

/-- What is left in the response then. -/
def leaves (h : Handler) (filling : Filling) (req : HttpRequest) : Filling :=
  match h.file req with
  | none => h.fill req filling
  | some file => file.leaves (h.fill req filling)

/-- The answer to a request is that of a cleared response, whatever version was found. -/
def Alike (h : Handler) (version : Bytes) (req : HttpRequest) : Prop :=
  (h.answer req (.freshWith version)).bytes = (h.answer req .fresh).bytes

/-- Some requests, from a response that is cleared but for the version: all answers are those of a
cleared response, and every request but the last leaves what it found, but for the version. -/
def Tidy (h : Handler) : Bytes → List HttpRequest → Prop
  | _, [] => True
  | version, [req] => h.Alike version req
  | version, req :: next :: rest =>
      h.Alike version req ∧ (h.leaves (.freshWith version) req).Cleared ∧
        h.Tidy (h.leaves (.freshWith version) req).version (next :: rest)

/-- A handler that never sets the version: every request but the last leaves a cleared response as
it is. -/
theorem tidy_fresh_iff {h : Handler}
    (unset : ∀ req, (h.leaves .fresh req).version = Filling.fresh.version) (reqs : List HttpRequest) :
    h.Tidy Filling.fresh.version reqs ↔ ∀ req ∈ reqs.dropLast, h.leaves .fresh req = .fresh := by
  have alike : ∀ req, h.Alike Filling.fresh.version req := fun _ => rfl
  have same : Filling.freshWith Filling.fresh.version = .fresh := rfl
  induction reqs with
  | nil => simp [Tidy]
  | cons req rest ih =>
      cases rest with
      | nil => simpa [Tidy] using alike req
      | cons next rest =>
          rw [List.dropLast_cons_of_ne_nil (List.cons_ne_nil _ _), List.forall_mem_cons, Tidy, same,
            unset, Filling.Cleared, unset, same]
          exact ⟨fun tidy => ⟨tidy.2.1, ih.mp tidy.2.2⟩, fun all => ⟨alike req, all.1, ih.mpr all.2⟩⟩

end Handler

namespace HttpConn

variable {c c' : HttpConn} {h : Handler}

/-- The response is sent, and something is left in it. -/
structure Delivers (c : HttpConn) (sent left : HttpResponse) (c' : HttpConn) : Prop where
  server : c'.isClient = false
  resp : c'.resp = left
  calls : c'.seen.calls = c.seen.calls
  sent : c'.seen.sent = c.seen.sent ++ [sent.startLine ++ sent.wireRest]

/-- What `encode` has appended. -/
theorem encode_appended (resp : HttpResponse) (buf : Buffer) :
    (resp.encode buf).2.contents.drop buf.size = resp.startLine ++ resp.wireRest := by
  rw [HttpResponse.encode, (HttpMsg.encodeWith_spec _ _ _).1]
  exact List.drop_left' buf.length_contents

/-- Nothing is sent or left in the response when a request is removed. -/
theorem consumeInput_keeps {len : ℤ} (ok : c.consumeInput len = .ok c') :
    c'.isClient = c.isClient ∧ c'.resp = c.resp ∧ c'.seen.calls = c.seen.calls ∧
      c'.seen.sent = c.seen.sent := by
  unfold consumeInput at ok
  split_ifs at ok
  cases ok
  exact ⟨rfl, rfl, rfl, rfl⟩

theorem clearData_keeps (server : c.isClient = false) (ok : c.clearData = .ok c') :
    c'.isClient = c.isClient ∧ c'.resp = c.resp ∧ c'.seen.calls = c.seen.calls ∧
      c'.seen.sent = c.seen.sent := by
  unfold clearData at ok
  rw [if_neg (by simp [server])] at ok
  cases consumed : c.consumeInput c.req.getByte with
  | error fault =>
      rw [consumed] at ok
      cases ok
  | ok c₁ =>
      have kept := consumeInput_keeps consumed
      rw [consumed] at ok
      cases ok
      exact kept

theorem sendResponse_delivers (server : c.isClient = false) (ok : c.sendResponse = .ok c') :
    Delivers c c.resp c.resp c' := by
  have server' : { c with
      output := (c.resp.encode c.output).2
      seen := { c.seen with sent := c.seen.sent ++
        [(c.resp.encode c.output).2.contents.drop c.output.size] } }.isClient = false := server
  obtain ⟨side, resp, calls, sent⟩ := clearData_keeps server' ok
  refine ⟨side.trans server, resp, calls, sent.trans ?_⟩
  rw [← encode_appended c.resp c.output]

/-- The response is filled before it is sent. -/
theorem fill_delivers {resp : HttpResponse} (server : c.isClient = false)
    (ok : { c with resp := resp }.sendResponse = .ok c') : Delivers c resp resp c' := by
  have delivers := sendResponse_delivers (c := { c with resp := resp }) server ok
  exact ⟨delivers.server, delivers.resp, delivers.calls, delivers.sent⟩

theorem sendFile_delivers {filling : Filling} {file : FileContent} (server : c.isClient = false)
    (ok : { c with resp := c.resp.filled filling }.sendFile file = .ok c') :
    Delivers c (c.resp.filled (file.answer filling)) (c.resp.filled (file.leaves filling)) c' := by
  cases file with
  | absent => exact fill_delivers server ok
  | failed msg => exact fill_delivers server ok
  | content cont freed same =>
      simp only [sendFile] at ok
      cases answered : { c with
          resp := { c.resp.filled filling with body2 := cont } }.sendResponse with
      | error fault =>
          rw [answered] at ok
          cases ok
      | ok c₁ =>
          rw [answered] at ok
          have delivers := fill_delivers server answered
          simp only [Except.map, delivers.server, Bool.false_eq_true, if_false] at ok
          have shape := Except.ok.inj ok
          refine ⟨?_, ?_, ?_, ?_⟩
          · rw [← shape]
          · rw [← shape, delivers.resp]
            rfl
          · rw [← shape, ← delivers.calls]
          · rw [← shape]
            exact delivers.sent

/-- The answer of a handler. -/
theorem callBack_delivers (server : c.isClient = false) (ok : h.callBack c = .ok c') :
    Delivers c (c.resp.filled (h.answer c.req c.resp.filling))
      (c.resp.filled (h.leaves c.resp.filling c.req)) c' := by
  unfold Handler.callBack at ok
  unfold Handler.answer Handler.leaves
  cases sends : h.file c.req with
  | none =>
      simp only [sends] at ok
      exact fill_delivers server ok
  | some file =>
      simp only [sends] at ok
      exact sendFile_delivers server ok

/-! ## Runs -/

/-- What the handlers find is what those before them have left. -/
structure Kept (h : Handler) (c : HttpConn) : Prop where
  server : c.isClient = false
  resp : c.resp = HttpResponse.cleared.filled
    ((c.seen.calls.map HttpCall.req).foldl h.leaves .fresh)
  found : c.seen.calls.map (·.resp.filling) =
    befores h.leaves .fresh (c.seen.calls.map HttpCall.req)
  sent : c.seen.sent = c.seen.calls.map fun call => (h.answer call.req call.resp.filling).bytes

/-- Decoding changes the request only. -/
theorem decode_server (server : c.isClient = false) (behind : Bytes) :
    (c.decode behind).2 = { c with
      req := (c.req.tryDecode c.input true).msg, input := (c.req.tryDecode c.input true).buf } := by
  rw [decode, if_neg (by simp [server])]

theorem Kept.of_same (kept : Kept h c) (server : c'.isClient = false) (resp : c'.resp = c.resp)
    (calls : c'.seen.calls = c.seen.calls) (sent : c'.seen.sent = c.seen.sent) : Kept h c' := by
  refine ⟨server, ?_, ?_, ?_⟩
  · rw [resp, calls, kept.resp]
  · rw [calls, kept.found]
  · rw [sent, calls, kept.sent]

/-- The handler is called and answers. -/
theorem Kept.call (kept : Kept h c) (ok : h.callBack c.call = .ok c') : Kept h c' := by
  have delivers := callBack_delivers (c := c.call) kept.server ok
  have logged : c'.seen.calls = c.seen.calls ++
      [⟨⟨c.seen.consumed, c.message.scanned⟩, c.seen.unanswered, c.req, c.resp⟩] := delivers.calls
  have sent : c'.seen.sent = c.seen.sent ++
      [(c.resp.filled (h.answer c.req c.resp.filling)).startLine ++
        (c.resp.filled (h.answer c.req c.resp.filling)).wireRest] := delivers.sent
  have left : c'.resp = c.resp.filled (h.leaves c.resp.filling c.req) := delivers.resp
  have filling : c.resp.filling = (c.seen.calls.map HttpCall.req).foldl h.leaves .fresh := by
    rw [kept.resp]
    rfl
  refine ⟨delivers.server, ?_, ?_, ?_⟩
  · rw [left, logged, List.map_append, List.foldl_append, ← filling, kept.resp]
    rfl
  · rw [logged, List.map_append, List.map_append, kept.found, List.map_singleton, List.map_singleton,
      befores_concat, filling]
  · rw [sent, logged, List.map_append, kept.sent, List.map_singleton, Filling.bytes, kept.resp]
    rfl

/-- **One readable event.** -/
theorem Kept.readable (kept : Kept h c) {bytes : Bytes}
    (ok : c.readable h.callBack bytes = .ok c') : Kept h c' := by
  unfold HttpConn.readable callRead at ok
  split_ifs at ok with called
  · rcases decodes : (c.receive bytes).decode [] with ⟨outcome, c₁⟩
    have first : c₁ = _ := (congrArg Prod.snd decodes).symm.trans
      (decode_server (c := c.receive bytes) kept.server [])
    have kept₁ : Kept h c₁ := kept.of_same (first ▸ kept.server) (first ▸ rfl) (first ▸ rfl) (first ▸ rfl)
    simp only [handleRead, decodes] at ok
    cases outcome with
    | error fault => cases ok
    | ok r =>
        cases r with
        | error =>
            cases ok
            exact kept₁.of_same kept₁.server rfl rfl rfl
        | complete => exact kept₁.call ok
        | notComplete =>
            cases ok
            exact kept₁
        | continue100 =>
            have server : ¬ c₁.isClient = true := by simp [kept₁.server]
            rw [react, if_neg server] at ok
            cases ok
            exact kept₁.of_same kept₁.server rfl rfl rfl
  · cases ok
    exact kept.of_same kept.server rfl rfl rfl

theorem kept_new (h : Handler) : Kept h (new false) := ⟨rfl, rfl, rfl, rfl⟩

/-- **Some readable events.** -/
theorem Kept.serve (kept : Kept h c) {chunks : List Bytes}
    (ok : c.serve h.callBack chunks = .ok c') : Kept h c' := by
  induction chunks generalizing c with
  | nil =>
      cases ok
      exact kept
  | cons bytes chunks ih =>
      rw [HttpConn.serve, List.foldlM_cons] at ok
      cases first : c.readable h.callBack bytes with
      | error fault =>
          rw [first] at ok
          cases ok
      | ok c₁ =>
          rw [first] at ok
          exact ih (kept.readable first) ok

/-! ## Answers -/

/-- Every handler has found status, headers and bodies as in a cleared response, and has answered as
on a connection of its own. -/
structure ServedAlone (h : Handler) (c : HttpConn) : Prop where
  found : ∀ call ∈ c.seen.calls, call.resp.filling.Cleared
  sent : c.seen.sent = c.seen.calls.map fun call => (h.answer call.req .fresh).bytes

/-- What the handlers find, call by call, when every request leaves status, headers and bodies as
they were and answers alike whatever version it finds. -/
theorem tidy_iff {calls : List HttpCall} {version : Bytes}
    (found : calls.map (·.resp.filling) =
      befores h.leaves (.freshWith version) (calls.map HttpCall.req)) :
    h.Tidy version (calls.map HttpCall.req) ↔ ∀ call ∈ calls, call.resp.filling.Cleared ∧
      (h.answer call.req call.resp.filling).bytes = (h.answer call.req .fresh).bytes := by
  induction calls generalizing version with
  | nil => simp [Handler.Tidy]
  | cons call calls ih =>
      rw [List.map_cons, List.map_cons, befores, List.cons.injEq] at found
      obtain ⟨first, rest⟩ := found
      have own : call.resp.filling.Cleared := by
        rw [first]
        rfl
      rw [List.forall_mem_cons, first]
      cases calls with
      | nil => simpa [Handler.Tidy, Handler.Alike] using fun _ => first ▸ own
      | cons next calls =>
          rw [List.map_cons, List.map_cons, Handler.Tidy, ← List.map_cons]
          have left : next.resp.filling = h.leaves (.freshWith version) call.req := by
            rw [List.map_cons, List.map_cons, befores, List.cons.injEq] at rest
            exact rest.1
          constructor
          · rintro ⟨alike, clears, tidy⟩
            rw [clears] at rest
            exact ⟨⟨first ▸ own, alike⟩, (ih rest).mp tidy⟩
          · rintro ⟨⟨-, alike⟩, others⟩
            have clears : (h.leaves (.freshWith version) call.req).Cleared :=
              left ▸ (others next List.mem_cons_self).1
            refine ⟨alike, clears, (ih ?_).mpr others⟩
            rw [← clears]
            exact rest

/-- **Requests are served as on connections of their own exactly if every request but the last
leaves a cleared response as it is, up to the version, and no version that was left shows.** -/
theorem served_alone_iff {chunks : List Bytes} (ran : (new false).serve h.callBack chunks = .ok c) :
    ServedAlone h c ↔ h.Tidy Filling.fresh.version (c.seen.calls.map HttpCall.req) := by
  have kept := (kept_new h).serve ran
  have found : c.seen.calls.map (·.resp.filling) = befores h.leaves
      (.freshWith Filling.fresh.version) (c.seen.calls.map HttpCall.req) := kept.found
  rw [tidy_iff found]
  constructor
  · rintro ⟨found, sent⟩ call member
    rw [kept.sent] at sent
    exact ⟨found call member, List.map_inj_left.mp sent call member⟩
  · intro each
    refine ⟨fun call member => (each call member).1, ?_⟩
    rw [kept.sent]
    exact List.map_congr_left fun call member => (each call member).2

/-- A handler that sends the response as it finds it. -/
def emptyPage : Handler := ⟨fun _ filling => filling, fun _ => none⟩

theorem served_alone_iff_empty : ∃ c, (new false).serve emptyPage.callBack [rootGet, rootGet] = .ok c ∧
    c.seen.calls.length = 2 ∧ ServedAlone emptyPage c := by
  have both : ((new false).serve emptyPage.callBack [rootGet, rootGet]).toOption.map
      (·.seen.calls.length) = some 2 := by decide +kernel
  cases ran : (new false).serve emptyPage.callBack [rootGet, rootGet] with
  | error fault =>
      rw [ran] at both
      cases both
  | ok c =>
      rw [ran] at both
      have tidy : emptyPage.Tidy Filling.fresh.version (c.seen.calls.map HttpCall.req) :=
        (Handler.tidy_fresh_iff (fun _ => rfl) _).mpr fun _ _ => rfl
      exact ⟨c, rfl, Option.some_inj.mp both, (served_alone_iff ran).mpr tidy⟩

/-- A handler that knows one page. -/
def onePage : Handler where
  fill req filling :=
    if req.uri = ascii "/" then { filling with body := ascii "one" }
    else filling.setStatus 404 (ascii "Not Found")
  file _ := none

/-- The page is not found after another was not. -/
theorem not_found_left : ¬ ∀ (h : Handler) (chunks : List Bytes) (c : HttpConn),
    (new false).serve h.callBack chunks = .ok c → ServedAlone h c := by
  intro always
  have statuses : ((new false).serve onePage.callBack
      [ascii "GET /two HTTP/1.1\r\n\r\n", rootGet]).toOption.map
        (·.seen.calls.map (·.resp.filling.status)) = some [200, 404] := by decide +kernel
  cases ran : (new false).serve onePage.callBack
      [ascii "GET /two HTTP/1.1\r\n\r\n", rootGet] with
  | error fault =>
      rw [ran] at statuses
      cases statuses
  | ok c =>
      rw [ran] at statuses
      have both : c.seen.calls.map (·.resp.filling.status) = [200, 404] :=
        Option.some_inj.mp statuses
      have found : (404 : ℤ) ∈ c.seen.calls.map (·.resp.filling.status) := by
        rw [both]
        decide
      obtain ⟨call, member, status⟩ := List.mem_map.mp found
      have cleared := (always _ _ _ ran).found call member
      rw [cleared] at status
      exact absurd (show (200 : ℤ) = 404 from status) (by decide)

end HttpConn

end Handy
