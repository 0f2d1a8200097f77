import Handy.Http

/-!
# What is sent

The bytes that `encode` appends, beside the wire form of HTTP/1.1: a start line, the header
lines in the order of the map, the two headers that `encode` adds, an empty line and the
body. The headers and the body go through the buffer and are never cut. The start line is
printed into an array of fixed size, and the one of a request ends with two line feeds. So a
response has its wire form exactly when its start line fits, and a request never does
(`HttpMsg.encode_wireForm_iff`).
-/

set_option autoImplicit false

namespace Handy

/-- The end of a line. -/
def crlf : Bytes := ascii "\r\n"

theorem crlf_eq : crlf = [13, 10] := by
  simp [crlf, ascii]

theorem cstr_eq {s : Bytes} (clean : ∀ c ∈ s, c ≠ 0) : cstr s = s := by
  rw [cstr, List.takeWhile_eq_self_iff]
  intro c member
  simpa using clean c member

theorem toInt32_eq_iff (value : ℕ) : toInt32 value = value ↔ value < 2 ^ 31 := by
  constructor
  · intro same
    have bound : toInt32 value < 2 ^ 31 := by
      unfold toInt32
      have below := Int.bmod_lt (x := (value : ℤ)) (m := 2 ^ 32) (by norm_num)
      norm_num at below ⊢
      exact below
    rw [same] at bound
    exact_mod_cast bound
  · exact toInt32_eq

/-- Bytes are appended, nothing else is touched, and their number is returned. -/
structure Appends (result : ℤ × Buffer) (buf : Buffer) (bytes : Bytes) : Prop where
  contents : result.2.contents = buf.contents ++ bytes
  count : result.1 = bytes.length

namespace HttpMsg

/-! ## Behind the start line -/

def headerLine (hd : Bytes × Bytes) : Bytes := hd.1 ++ ascii ": " ++ hd.2

/-- The wire form behind the start line. -/
def wireRest (m : HttpMsg) : Bytes :=
  (m.headers.entries.flatMap fun hd => headerLine hd ++ crlf) ++
    ascii "Connection: Keep-Alive" ++ crlf ++
    (ascii "Content-Length: " ++ decimal m.getBody.length) ++ crlf ++ crlf ++ m.getBody

theorem contents_encodeHeaders (hds : List (Bytes × Bytes)) (buf : Buffer) :
    (hds.foldl encodeHeader buf).contents =
      buf.contents ++ hds.flatMap fun hd => headerLine hd ++ crlf := by
  induction hds generalizing buf with
  | nil => simp
  | cons hd rest ih =>
      rw [List.foldl_cons, ih, List.flatMap_cons]
      simp only [encodeHeader, Buffer.contents_append, headerLine, crlf, List.append_assoc]

/-- **The headers and the body are appended as they are.** -/
theorem contents_encodeRest (m : HttpMsg) (buf : Buffer) :
    (m.encodeRest buf).contents = buf.contents ++ m.wireRest := by
  have connection : ascii "Connection: Keep-Alive\r\n" = ascii "Connection: Keep-Alive" ++ crlf := by
    simp [crlf, ascii]
  simp only [encodeRest, Buffer.contents_append, contents_encodeHeaders, connection, wireRest]
  simp only [crlf, List.append_assoc]

/-- What `encode` appends, and what it returns. -/
theorem encodeWith_spec (m : HttpMsg) (line : Bytes) (buf : Buffer) :
    (m.encodeWith line buf).2.contents = buf.contents ++ (line ++ m.wireRest) ∧
      (m.encodeWith line buf).1 = toInt32 (line ++ m.wireRest).length := by
  have contents : (m.encodeRest (buf.append line)).contents =
      buf.contents ++ (line ++ m.wireRest) := by
    rw [contents_encodeRest, Buffer.contents_append, List.append_assoc]
  refine ⟨contents, ?_⟩
  have size : (m.encodeRest (buf.append line)).size =
      buf.size + (line ++ m.wireRest).length := by
    rw [← Buffer.length_contents, contents, List.length_append, Buffer.length_contents]
  simp only [encodeWith, size]
  push_cast
  rw [add_sub_cancel_left]

/-- The wire form is appended exactly when the line that was printed is the start line. -/
theorem appends_iff (m : HttpMsg) (printed line : Bytes) (buf : Buffer) :
    Appends (m.encodeWith printed buf) buf (line ++ m.wireRest) ↔
      printed = line ∧ (line ++ m.wireRest).length < 2 ^ 31 := by
  obtain ⟨contents, count⟩ := m.encodeWith_spec printed buf
  constructor
  · intro appends
    have same : printed = line := by
      have joined := appends.contents
      rw [contents] at joined
      exact List.append_cancel_right (List.append_cancel_left joined)
    subst same
    refine ⟨rfl, ?_⟩
    rw [← toInt32_eq_iff, ← count, appends.count]
  · rintro ⟨rfl, short⟩
    exact ⟨contents, count.trans ((toInt32_eq_iff _).mpr short)⟩

end HttpMsg

/-! ## Start lines -/

namespace HttpRequest

/-- The fields of the request line are free of zeros. -/
def NulFree (req : HttpRequest) : Prop := ∀ c ∈ req.method ++ req.queryUri ++ req.version, c ≠ 0

instance (req : HttpRequest) : Decidable req.NulFree := inferInstanceAs (Decidable (∀ _ ∈ _, _))

def requestLine (req : HttpRequest) : Bytes :=
  req.method ++ ascii " " ++ req.queryUri ++ ascii " " ++ req.version

/-- The wire form of a request. -/
def wireForm (req : HttpRequest) : Bytes := req.requestLine ++ crlf ++ req.wireRest

theorem startLine_eq {req : HttpRequest} (clean : req.NulFree) :
    req.startLine = (req.requestLine ++ ascii "\n\n").take 4095 := by
  have method : cstr req.method = req.method := cstr_eq fun c member => clean c (by simp [member])
  have queryUri : cstr req.queryUri = req.queryUri := cstr_eq fun c member => clean c (by simp [member])
  have version : cstr req.version = req.version := cstr_eq fun c member => clean c (by simp [member])
  rw [startLine, method, queryUri, version, requestLine]

/-- The request line is never ended by a carriage return and a line feed. -/
theorem startLine_ne {req : HttpRequest} (clean : req.NulFree) :
    req.startLine ≠ req.requestLine ++ crlf := by
  intro same
  rw [startLine_eq clean] at same
  have feeds : (ascii "\n\n").length = 2 := by simp [ascii]
  have ends : crlf.length = 2 := by simp [crlf_eq]
  -- The line has not been cut, since it is as long as the wire form.
  have whole : (req.requestLine ++ ascii "\n\n").take 4095 = req.requestLine ++ ascii "\n\n" := by
    have size := congrArg List.length same
    rw [List.take_eq_self_iff]
    simp only [List.length_take, List.length_append, feeds, ends] at size ⊢
    omega
  rw [whole] at same
  have lineEnds := List.append_cancel_left same
  simp [crlf_eq, ascii] at lineEnds

end HttpRequest

namespace HttpResponse

/-- The fields of the status line are free of zeros. -/
def NulFree (resp : HttpResponse) : Prop := ∀ c ∈ resp.version ++ resp.statusWord, c ≠ 0

instance (resp : HttpResponse) : Decidable resp.NulFree :=
  inferInstanceAs (Decidable (∀ _ ∈ _, _))

def statusLine (resp : HttpResponse) : Bytes :=
  resp.version ++ ascii " " ++ decimalInt resp.status ++ ascii " " ++ resp.statusWord

/-- The wire form of a response. -/
def wireForm (resp : HttpResponse) : Bytes := resp.statusLine ++ crlf ++ resp.wireRest

theorem startLine_eq {resp : HttpResponse} (clean : resp.NulFree) :
    resp.startLine = (resp.statusLine ++ crlf).take 1023 := by
  have version : cstr resp.version = resp.version := cstr_eq fun c member => clean c (by simp [member])
  have statusWord : cstr resp.statusWord = resp.statusWord :=
    cstr_eq fun c member => clean c (by simp [member])
  rw [startLine, version, statusWord, statusLine, crlf]

/-- The status line is whole when it fits into the array, with the zero that ends it. -/
theorem startLine_eq_iff {resp : HttpResponse} (clean : resp.NulFree) :
    resp.startLine = resp.statusLine ++ crlf ↔ (resp.statusLine ++ crlf).length < 1024 := by
  rw [startLine_eq clean, List.take_eq_self_iff, Nat.lt_succ_iff]

end HttpResponse

namespace HttpMsg

/-- **A request never has its wire form, and a response has it exactly when its status line
fits** and the number of bytes is an `int`. -/
theorem encode_wireForm_iff {req : HttpRequest} {resp : HttpResponse} (request : req.NulFree)
    (response : resp.NulFree) (buf : Buffer) :
    ¬ Appends (req.encode buf) buf req.wireForm ∧
      (Appends (resp.encode buf) buf resp.wireForm ↔
        (resp.statusLine ++ crlf).length < 1024 ∧ resp.wireForm.length < 2 ^ 31) := by
  constructor
  · intro appends
    exact HttpRequest.startLine_ne request ((req.appends_iff _ _ buf).mp appends).1
  · rw [← HttpResponse.startLine_eq_iff response]
    exact resp.appends_iff _ _ buf

/-- A request for the root. -/
def rootRequest : HttpRequest := { HttpRequest.cleared with queryUri := ascii "/" }

theorem encode_wireForm_iff_root :
    rootRequest.NulFree ∧ ¬ Appends (rootRequest.encode .new) .new rootRequest.wireForm ∧
      HttpResponse.cleared.NulFree ∧
      Appends (HttpResponse.cleared.encode .new) .new HttpResponse.cleared.wireForm := by
  have request : rootRequest.NulFree := by decide +kernel
  have response : HttpResponse.cleared.NulFree := by decide +kernel
  obtain ⟨never, whole⟩ := encode_wireForm_iff request response .new
  exact ⟨request, never, response, whole.mpr (by decide +kernel)⟩

/-- The request line of a request for the root ends with two line feeds. -/
theorem request_line_ends_with_line_feeds :
    rootRequest.NulFree ∧
    (rootRequest.encode .new).2.contents.take 16 = ascii "GET / HTTP/1.1\n\n" ∧
    rootRequest.wireForm.take 16 = ascii "GET / HTTP/1.1\r\n" ∧
    ¬ Appends (rootRequest.encode .new) .new rootRequest.wireForm := by
  have printed : (rootRequest.encode .new).2.contents.take 16 = ascii "GET / HTTP/1.1\n\n" := by
    decide +kernel
  have wire : rootRequest.wireForm.take 16 = ascii "GET / HTTP/1.1\r\n" := by decide +kernel
  refine ⟨by decide +kernel, printed, wire, fun appends => ?_⟩
  have same := congrArg (List.take 16) appends.contents
  rw [printed, show Buffer.new.contents = [] from rfl, List.nil_append, wire] at same
  simp [ascii] at same

end HttpMsg

end Handy
