import Handy.Http.Text
import Handy.Lib.OrderedMap

/-!
# HTTP messages

`HttpMsg`, `HttpRequest` and `HttpResponse`, with their decoders and encoders as
`http.cc` writes them.

A decoder is called on the bytes received so far, and keeps in the message how far it got.
It writes into the buffer that it reads: the names of the headers are lower-cased in place.
So a call has four results, collected in `Decode`: what it returns, the message, the start
line it has found, and the bytes of the buffer. One call does not return: `body.assign` throws
when the content length is negative. Without a copy of the body the call does return then, with a
`Slice` that leaves the buffer.

Sizes are of type `size_t`, so their sums wrap around at `2 ^ 64`.
-/

set_option autoImplicit false

namespace Handy

/-- A `std::map` of strings. -/
abbrev StringMap := OrderedMap Bytes Bytes

/-- `getValueFromMap_`. -/
def getValueFromMap (m : StringMap) (n : Bytes) : Bytes := (m.find? n).getD []

/-- The sum of two sizes. -/
def addSize (first second : ℕ) : ℕ := (first + second) % 2 ^ 64

/-- The value of an `int` stored in a `size_t`. -/
def toSize (value : ℤ) : ℕ := (value % 2 ^ 64).toNat

/-- `HttpMsg`; `body2` is kept as the bytes that it views, and if it is `stray`, it goes on outside
of the buffer. -/
structure HttpMsg where
  headers : StringMap
  version : Bytes
  body : Bytes
  body2 : Bytes
  stray : Bool
  complete : Bool
  contentLen : ℕ
  scanned : ℕ

/-- `HttpMsg::Result`. -/
inductive Result where
  | error
  | complete
  | notComplete
  | continue100
  deriving DecidableEq, Repr

/-- Why a decoder does not return. -/
inductive DecodeFault where
  /-- `body.assign` throws `std::length_error`. -/
  | lengthError
  deriving DecidableEq, Repr

/-- What a call of a decoder comes to: its answer, the message after it, the start line if
the call has found it, and the bytes of the buffer after it. -/
structure Decode (M : Type) where
  outcome : Except DecodeFault Result
  msg : M
  line1 : Bytes
  buf : Bytes

namespace HttpMsg

/-- A message after `HttpMsg::clear`. -/
def cleared : HttpMsg where
  headers := .empty
  version := ascii "HTTP/1.1"
  body := []
  body2 := []
  stray := false
  complete := false
  contentLen := 0
  scanned := 0

def getHeader (m : HttpMsg) (n : Bytes) : Bytes := getValueFromMap m.headers n

def getBody (m : HttpMsg) : Bytes :=
  if m.stray = true ∨ m.body2.length ≠ 0 then m.body2 else m.body

def getByte (m : HttpMsg) : ℤ := toInt32 m.scanned

/-! ## Decoding -/

/-- The search for the empty line from offset `scanned`, where the bytes given begin: the
offset at which it ends, and whether the empty line is there. -/
def scan : Bytes → ℕ → ℕ × Bool
  | c :: rest, scanned =>
      if rest.length < 3 then (scanned, false)
      else if c = 13 ∧ rest.take 3 = [10, 13, 10] then (scanned, true)
      else scan rest (scanned + 1)
  | [], scanned => (scanned, false)

/-- What a line of a header is taken apart into: the white space before its name, the name
with its colon, and what follows the name. -/
structure Line where
  margin : Bytes
  name : Bytes
  rest : Bytes

def splitLine (ln : Bytes) : Line :=
  ⟨ln.takeWhile isSpace, (eatWord ln).1, (eatWord ln).2⟩

/-- What the loop over the header lines comes to: whether all were accepted, the headers,
and the bytes of the lines with their names lower-cased. -/
structure Lines where
  accepted : Bool
  headers : StringMap
  buf : Bytes

/-- The loop over the header lines, for at most `fuel` lines. Each is preceded by two bytes
that nobody looks at; when there is only one, `eat(2)` passes the end of the head, and the
line is not taken for an empty one. -/
def decodeLines : ℕ → StringMap → Bytes → Lines
  | _, headers, [] => ⟨true, headers, []⟩
  | 0, headers, req => ⟨false, headers, req⟩
  | _ + 1, headers, [c] => ⟨false, headers, [c]⟩
  | fuel + 1, headers, c :: d :: req =>
      let (ln, rest) := eatLine req
      let line := splitLine ln
      let value := trimSpace line.rest
      if line.name ≠ [] ∧ value ≠ [] ∧ line.name.getLast? = some 58 then
        let name := line.name.map toLower
        let tail := decodeLines fuel (headers.set name.dropLast value) rest
        ⟨tail.accepted, tail.headers, c :: d :: (line.margin ++ name ++ line.rest ++ tail.buf)⟩
      else if line.name = [] ∧ value = [] ∧ rest = [] then ⟨true, headers, c :: d :: req⟩
      else ⟨false, headers, c :: d :: req⟩

/-- What the first part of `tryDecode_` comes to: its answer if it returns, the message, the
start line and the bytes of the buffer. -/
structure Head where
  answer : Option Result
  msg : HttpMsg
  line1 : Bytes
  buf : Bytes

/-- The head ends with these headers. -/
def endHead (m : HttpMsg) (headers : StringMap) : HttpMsg := { m with
  headers := headers
  scanned := m.scanned + 4
  contentLen := toSize (atoi (getValueFromMap headers (ascii "content-length"))) }

/-- The lines of a complete head `req`, in a buffer that goes on with `rest`. -/
def readHead (m : HttpMsg) (req rest : Bytes) : Head :=
  let (line1, tail) := eatLine req
  let lines := decodeLines tail.length m.headers tail
  let buf := line1 ++ lines.buf ++ rest
  if lines.accepted = false then ⟨some .error, { m with headers := lines.headers }, line1, buf⟩
  else
    let m := m.endHead lines.headers
    if buf.length < addSize m.contentLen m.scanned ∧ (m.getHeader (ascii "Expect")).length ≠ 0 then
      ⟨some .continue100, m, line1, buf⟩
    else ⟨none, m, line1, buf⟩

/-- The first part of `tryDecode_`, entered as long as `contentLen_` is zero. -/
def decodeHead (m : HttpMsg) (buf : Bytes) : Head :=
  let (scanned, found) := scan (buf.drop m.scanned) m.scanned
  let m := { m with scanned := scanned }
  let req := if found then buf.take scanned else []
  if req = [] then ⟨some .notComplete, m, [], buf⟩ else m.readHead req (buf.drop scanned)

/-- The body of a message, as `copyBody` asks for it. A `Slice` whose length is that of a negative
number does not end in the buffer. -/
def takeBody (m : HttpMsg) (buf : Bytes) (copyBody : Bool) : HttpMsg :=
  let bytes := (buf.drop m.scanned).take m.contentLen
  if copyBody then { m with body := bytes }
  else { m with body2 := bytes, stray := decide (2 ^ 63 ≤ m.contentLen) }

/-- The second part of `tryDecode_`. No string is as long as a negative content length. -/
def decodeBody (m : HttpMsg) (buf : Bytes) (copyBody : Bool) : Except DecodeFault Result × HttpMsg :=
  if addSize m.contentLen m.scanned ≤ buf.length then
    if copyBody = true ∧ 2 ^ 63 ≤ m.contentLen then (.error .lengthError, m)
    else
      (.ok .complete, { m.takeBody buf copyBody with
        complete := true, scanned := addSize m.scanned m.contentLen })
  else (.ok .notComplete, m)

/-- `HttpMsg::tryDecode_`. -/
def tryDecode (m : HttpMsg) (buf : Bytes) (copyBody : Bool) : Decode HttpMsg :=
  if m.complete then ⟨.ok .complete, m, [], buf⟩
  else if m.contentLen = 0 then
    let head := m.decodeHead buf
    match head.answer with
    | some r => ⟨.ok r, head.msg, head.line1, head.buf⟩
    | none =>
        let (outcome, m) := head.msg.decodeBody head.buf copyBody
        ⟨outcome, m, head.line1, head.buf⟩
  else
    let (outcome, m) := m.decodeBody buf copyBody
    ⟨outcome, m, [], buf⟩

/-! ## Encoding -/

/-- A header, as `encode` appends it. -/
def encodeHeader (buf : Buffer) (hd : Bytes × Bytes) : Buffer :=
  (((buf.append hd.1).append (ascii ": ")).append hd.2).append (ascii "\r\n")

/-- What `encode` appends behind the start line. -/
def encodeRest (m : HttpMsg) (buf : Buffer) : Buffer :=
  let buf := m.headers.entries.foldl encodeHeader buf
  let buf := buf.append (ascii "Connection: Keep-Alive\r\n")
  let buf := buf.append (ascii "Content-Length: " ++ decimal m.getBody.length ++ ascii "\r\n")
  (buf.append (ascii "\r\n")).append m.getBody

/-- `encode`, with the line that `snprintf` has left in its buffer: the number of bytes
appended, as an `int`, and the buffer. -/
def encodeWith (m : HttpMsg) (line : Bytes) (buf : Buffer) : ℤ × Buffer :=
  let osz := buf.size
  let buf := m.encodeRest (buf.append line)
  (toInt32 (buf.size - osz), buf)

end HttpMsg

/-! ## Requests -/

/-- `HttpRequest`. -/
structure HttpRequest extends HttpMsg where
  args : StringMap
  method : Bytes
  uri : Bytes
  queryUri : Bytes

namespace HttpRequest

/-- A request after `HttpRequest::clear`. -/
def cleared : HttpRequest where
  toHttpMsg := .cleared
  args := .empty
  method := ascii "GET"
  uri := []
  queryUri := []

def getArg (req : HttpRequest) (n : Bytes) : Bytes := getValueFromMap req.args n

/-- The request line that `snprintf` writes, in 4096 bytes with the final zero. -/
def startLine (req : HttpRequest) : Bytes :=
  (cstr req.method ++ ascii " " ++ cstr req.queryUri ++ ascii " " ++ cstr req.version ++
    ascii "\n\n").take 4095

/-- `HttpRequest::encode`. -/
def encode (req : HttpRequest) (buf : Buffer) : ℤ × Buffer := req.encodeWith req.startLine buf

/-- The loop over the query string, for at most `fuel` arguments. -/
def parseArgs : ℕ → StringMap → Bytes → StringMap
  | _, args, [] => args
  | 0, args, _ => args
  | fuel + 1, args, qs =>
      let key := qs.takeWhile fun c => c ≠ 61 ∧ c ≠ 38
      let qs := qs.dropWhile fun c => c ≠ 61 ∧ c ≠ 38
      let qs := if qs.head? = some 61 then qs.tail else qs
      let value := qs.takeWhile fun c => c ≠ 38
      let qs := (qs.dropWhile fun c => c ≠ 38).tail
      parseArgs fuel (if key ≠ [] then args.set key value else args) qs

/-- The loop over `query_uri` that looks for a question mark. -/
def splitUri (req : HttpRequest) : HttpRequest :=
  let path := req.queryUri.takeWhile fun c => c ≠ 63
  match req.queryUri.dropWhile fun c => c ≠ 63 with
  | [] => { req with uri := req.queryUri }
  | _ :: qs => { req with uri := path, args := parseArgs qs.length req.args qs }

/-- The start line is taken apart; the answer is whether it is accepted. -/
def decodeLine (req : HttpRequest) (line1 : Bytes) : Bool × HttpRequest :=
  let (method, ln1) := eatWord line1
  let (queryUri, ln1) := eatWord ln1
  let (version, _) := eatWord ln1
  let req := { req with method := method, queryUri := queryUri, version := version }
  if queryUri.length = 0 ∨ queryUri.head? ≠ some 47 then (false, req)
  else (true, req.splitUri)

/-- `HttpRequest::tryDecode`. -/
def tryDecode (req : HttpRequest) (buf : Bytes) (copyBody : Bool) : Decode HttpRequest :=
  let d := req.toHttpMsg.tryDecode buf copyBody
  let req := { req with toHttpMsg := d.msg }
  match d.outcome with
  | .error fault => ⟨.error fault, req, d.line1, d.buf⟩
  | .ok r =>
      if d.line1.length ≠ 0 then
        let (accepted, req) := req.decodeLine d.line1
        ⟨.ok (if accepted then r else .error), req, d.line1, d.buf⟩
      else ⟨.ok r, req, d.line1, d.buf⟩

end HttpRequest

/-! ## Responses -/

/-- `HttpResponse`. -/
structure HttpResponse extends HttpMsg where
  statusWord : Bytes
  status : ℤ

namespace HttpResponse

/-- A response after `HttpResponse::clear`. -/
def cleared : HttpResponse where
  toHttpMsg := .cleared
  statusWord := ascii "OK"
  status := 200

/-- `setStatus`. -/
def setStatus (resp : HttpResponse) (st : ℤ) (msg : Bytes) : HttpResponse :=
  { resp with status := st, statusWord := msg, body := msg }

/-- `setNotFound`. -/
def setNotFound (resp : HttpResponse) : HttpResponse := resp.setStatus 404 (ascii "Not Found")

/-- The status line that `snprintf` writes, in 1024 bytes with the final zero. -/
def startLine (resp : HttpResponse) : Bytes :=
  (cstr resp.version ++ ascii " " ++ decimalInt resp.status ++ ascii " " ++ cstr resp.statusWord ++
    ascii "\r\n").take 1023

/-- `HttpResponse::encode`. -/
def encode (resp : HttpResponse) (buf : Buffer) : ℤ × Buffer := resp.encodeWith resp.startLine buf

/-- The start line is taken apart. The status is read by `atoi` from the place where its
word begins or the line ends, on through the memory given. -/
def decodeLine (resp : HttpResponse) (line1 memory : Bytes) : HttpResponse :=
  let (version, ln1) := eatWord line1
  let place := line1.length - (ln1.dropWhile isSpace).length
  let (_, ln1) := eatWord ln1
  { resp with
    version := version
    status := atoi (memory.drop place)
    statusWord := trimSpace ln1 }

/-- `HttpResponse::tryDecode`, where `behind` is the memory that follows the buffer. -/
def tryDecode (resp : HttpResponse) (buf behind : Bytes) (copyBody : Bool) : Decode HttpResponse :=
  let d := resp.toHttpMsg.tryDecode buf copyBody
  let resp := { resp with toHttpMsg := d.msg }
  match d.outcome with
  | .error fault => ⟨.error fault, resp, d.line1, d.buf⟩
  | .ok r =>
      if d.line1.length ≠ 0 then ⟨.ok r, resp.decodeLine d.line1 (d.buf ++ behind), d.line1, d.buf⟩
      else ⟨.ok r, resp, d.line1, d.buf⟩

end HttpResponse

end Handy
