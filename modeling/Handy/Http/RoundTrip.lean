import Handy.Http.Once
import Handy.Http.Wire

/-!
# Decoding undoes encoding

The bytes that `encode` appends, followed by anything, are decoded to the message they were
made from: `HttpMsg.http_round_trip`. The head consists of a start line and of header lines,
each preceded by two bytes that the decoder skips. The encoder of requests ends its first
line with two line feeds, and these are the two bytes that precede the first header.

No empty line stands before the end of the head, because no line begins with a carriage
return, and what the body contains does not matter. The names of the two headers that
`encode` adds are lower-cased by the decoder.
-/

set_option autoImplicit false

namespace Handy

/-- A header that fits into a line: its name is a word, and its value fits between the white
space that the decoder trims. -/
structure PlainHeader (hd : Bytes × Bytes) : Prop where
  name : IsWord hd.1
  nonempty : hd.2 ≠ []
  trimmed : Trimmed hd.2
  line : ∀ c ∈ hd.2, isEol c = false

namespace HttpMsg

/-! ## Header lines -/

/-- Header lines, each with the two bytes that precede it. -/
def headerLines (hds : List (Bytes × Bytes)) : Bytes :=
  hds.flatMap fun hd => 13 :: 10 :: headerLine hd

theorem headerLine_plain {hd : Bytes × Bytes} (plain : PlainHeader hd) :
    ∀ c ∈ headerLine hd, isEol c = false := by
  intro c member
  simp only [headerLine, List.mem_append] at member
  rcases member with (name | colon) | value
  · exact plain.name.plain c name
  · have separator : c = 58 ∨ c = 32 := by simpa [ascii] using colon
    rcases separator with rfl | rfl <;> rfl
  · exact plain.line c value

/-- The parts of a header line. -/
theorem splitLine_headerLine {hd : Bytes × Bytes} (plain : PlainHeader hd) :
    splitLine (headerLine hd) = ⟨[], hd.1 ++ [58], 32 :: hd.2⟩ := by
  have word : IsWord (hd.1 ++ [58]) := by
    refine ⟨by simp, fun c member => ?_⟩
    rcases List.mem_append.mp member with name | colon
    · exact plain.name.2 c name
    · rw [List.mem_singleton.mp colon]
      rfl
  have parts : splitLine ([] ++ (hd.1 ++ [58]) ++ 32 :: hd.2) = ⟨[], hd.1 ++ [58], 32 :: hd.2⟩ :=
    splitLine_parts (by simp) word rfl
  rwa [show [] ++ (hd.1 ++ [58]) ++ 32 :: hd.2 = headerLine hd by simp [headerLine, ascii]] at parts

theorem named_headerLine {hd : Bytes × Bytes} (plain : PlainHeader hd) : Named (headerLine hd) := by
  rw [Named, splitLine_headerLine plain, trimSpace_space rfl, trimSpace_trimmed plain.trimmed]
  exact ⟨by simp, plain.nonempty, by simp⟩

/-- The loop over the header lines stores a header. -/
theorem decodeLines_headerLine {hd : Bytes × Bytes} (plain : PlainHeader hd) (fuel : ℕ)
    (headers : StringMap) (c d : UInt8) {rest : Bytes}
    (stops : Stops (fun c => !isEol c) rest) :
    let tail := decodeLines fuel (headers.set (hd.1.map toLower) hd.2) rest
    (decodeLines (fuel + 1) headers (c :: d :: (headerLine hd ++ rest))).accepted = tail.accepted ∧
      (decodeLines (fuel + 1) headers (c :: d :: (headerLine hd ++ rest))).headers = tail.headers := by
  have stored := decodeLines_named (named_headerLine plain) fuel headers c d
    (eatLine_stops (headerLine_plain plain) stops)
  simp only [splitLine_headerLine plain, trimSpace_space (show isSpace 32 = true from rfl),
    trimSpace_trimmed plain.trimmed, List.map_append, List.map_cons, List.map_nil,
    List.dropLast_concat] at stored
  rw [stored]
  exact ⟨rfl, rfl⟩

theorem stops_headerLines (hds : List (Bytes × Bytes)) :
    Stops (fun c => !isEol c) (headerLines hds) := by
  cases hds <;> rfl

/-- Headers stored one after the other, under their names in lower case. -/
def storeAll (headers : StringMap) (hds : List (Bytes × Bytes)) : StringMap :=
  hds.foldl (fun headers hd => headers.set (hd.1.map toLower) hd.2) headers

/-- **The loop over the header lines stores the headers.** -/
theorem decodeLines_headerLines {hds : List (Bytes × Bytes)} (plain : ∀ hd ∈ hds, PlainHeader hd)
    {fuel : ℕ} (enough : hds.length ≤ fuel) (headers : StringMap) :
    (decodeLines fuel headers (headerLines hds)).accepted = true ∧
      (decodeLines fuel headers (headerLines hds)).headers = storeAll headers hds := by
  induction hds generalizing fuel headers with
  | nil => cases fuel <;> exact ⟨rfl, rfl⟩
  | cons hd rest ih =>
      obtain ⟨fuel, rfl⟩ : ∃ fewer, fuel = fewer + 1 :=
        Nat.exists_eq_add_of_le' (Nat.le_of_add_left_le enough)
      have lines : headerLines (hd :: rest) = 13 :: 10 :: (headerLine hd ++ headerLines rest) := by
        simp [headerLines]
      obtain ⟨accepted, stored⟩ := decodeLines_headerLine (plain hd List.mem_cons_self) fuel headers
        13 10 (stops_headerLines rest)
      rw [lines, accepted, stored]
      exact ih (fun other among => plain other (List.mem_cons_of_mem _ among))
        (Nat.le_of_succ_le_succ enough) _

/-! ## The search for the empty line -/

/-- The empty line is not found in a piece, whatever follows. -/
def Passes (piece : Bytes) : Prop := ∀ (more : Bytes) (i : ℕ), 3 ≤ more.length →
  scan (piece ++ more) i = scan more (i + piece.length)

theorem Passes.append {front back : Bytes} (first : Passes front) (second : Passes back) :
    Passes (front ++ back) := by
  intro more i long
  rw [List.append_assoc, first _ i (by rw [List.length_append]; omega), second _ _ long,
    List.length_append, Nat.add_assoc]

/-- A piece without a carriage return. -/
theorem passes_plain {piece : Bytes} (plain : ∀ c ∈ piece, c ≠ 13) : Passes piece := by
  intro more i long
  induction piece generalizing i with
  | nil => rfl
  | cons c rest ih =>
      have enough : ¬ (rest ++ more).length < 3 := by
        rw [List.length_append]
        omega
      rw [List.cons_append, scan, if_neg enough,
        if_neg fun found => plain c List.mem_cons_self found.1,
        ih (fun d among => plain d (List.mem_cons_of_mem _ among)), List.length_cons]
      congr 1
      omega

theorem ne_cr_of_plain {c : UInt8} (plain : isEol c = false) : c ≠ 13 := by
  rintro rfl
  cases plain

/-- A line end before a line that is not empty. -/
theorem passes_lineEnd {line : Bytes} (nonempty : line ≠ []) (plain : ∀ c ∈ line, isEol c = false) :
    Passes (13 :: 10 :: line) := by
  obtain ⟨c, rest, rfl⟩ := List.exists_cons_of_ne_nil nonempty
  intro more i long
  have other : c ≠ 13 := ne_cr_of_plain (plain c List.mem_cons_self)
  have enough : ¬ (10 :: c :: rest ++ more).length < 3 := by
    simp only [List.length_append, List.length_cons]
    omega
  have after : Passes (10 :: c :: rest) := by
    refine passes_plain fun d member => ?_
    rcases List.mem_cons.mp member with rfl | among
    · decide
    · exact ne_cr_of_plain (plain d among)
  rw [List.cons_append, scan, if_neg enough, if_neg (by simp [other]), after more _ long]
  simp only [List.length_cons]
  congr 1
  omega

theorem headerLine_ne_nil (hd : Bytes × Bytes) : headerLine hd ≠ [] := by
  simp [headerLine, ascii]

theorem passes_headerLines {hds : List (Bytes × Bytes)} (plain : ∀ hd ∈ hds, PlainHeader hd) :
    Passes (headerLines hds) := by
  induction hds with
  | nil => exact fun _ _ _ => rfl
  | cons hd rest ih =>
      have lines : headerLines (hd :: rest) = (13 :: 10 :: headerLine hd) ++ headerLines rest := by
        simp [headerLines]
      rw [lines]
      refine .append ?_ (ih fun other among => plain other (List.mem_cons_of_mem _ among))
      exact passes_lineEnd (headerLine_ne_nil hd) (headerLine_plain (plain hd List.mem_cons_self))

theorem scan_emptyLine (rest : Bytes) (i : ℕ) :
    scan (13 :: 10 :: 13 :: 10 :: rest) i = (i, true) := by
  rw [scan, if_neg (by simp), if_pos ⟨rfl, rfl⟩]

/-! ## Messages on the wire -/

/-- What is left of a message when it has been sent: its start line, the two bytes that
follow it, its headers and its body. -/
structure Sent where
  line1 : Bytes
  sep : UInt8 × UInt8
  first : Bytes × Bytes
  others : List (Bytes × Bytes)
  body : Bytes

namespace Sent

def head (sent : Sent) : Bytes :=
  sent.line1 ++ sent.sep.1 :: sent.sep.2 :: (headerLine sent.first ++ headerLines sent.others)

def wire (sent : Sent) : Bytes := sent.head ++ (13 :: 10 :: 13 :: 10 :: sent.body)

/-- The message can be read back. -/
structure Readable (sent : Sent) : Prop where
  line1 : ∀ c ∈ sent.line1, isEol c = false
  sep : sent.sep = (10, 10) ∨ sent.sep = (13, 10)
  headers : ∀ hd ∈ sent.first :: sent.others, PlainHeader hd
  contentLength : getValueFromMap (storeAll .empty (sent.first :: sent.others))
    (ascii "content-length") = decimal sent.body.length
  small : sent.body.length < 2 ^ 31

namespace Readable

variable {sent : Sent}

theorem passes (readable : sent.Readable) : Passes sent.head := by
  have plain := headerLine_plain (readable.headers sent.first List.mem_cons_self)
  have start : Passes sent.line1 :=
    passes_plain fun c member => ne_cr_of_plain (readable.line1 c member)
  have others : Passes (headerLines sent.others) :=
    passes_headerLines fun hd among => readable.headers hd (List.mem_cons_of_mem _ among)
  have second : Passes (sent.sep.1 :: sent.sep.2 :: headerLine sent.first) := by
    rcases readable.sep with shape | shape
    · rw [shape]
      refine passes_plain fun c member => ?_
      rcases List.mem_cons.mp member with rfl | member
      · decide
      · rcases List.mem_cons.mp member with rfl | member
        · decide
        · exact ne_cr_of_plain (plain c member)
    · rw [shape]
      exact passes_lineEnd (headerLine_ne_nil _) plain
  have joined : sent.head =
      sent.line1 ++ ((sent.sep.1 :: sent.sep.2 :: headerLine sent.first) ++ headerLines sent.others) := by
    simp [head]
  rw [joined]
  exact start.append (second.append others)

/-- The head ends where its last header does. -/
theorem headAt (readable : sent.Readable) (trailing : Bytes) :
    HeadAt (sent.wire ++ trailing) (sent.wire ++ trailing).length sent.head.length := by
  refine ⟨?_, ?_⟩
  · rw [List.take_length, wire, List.append_assoc, readable.passes _ _ (by simp), Nat.zero_add]
    exact scan_emptyLine _ _
  · simp only [head, List.length_append, List.length_cons]
    omega

theorem eatLine_head (readable : sent.Readable) : eatLine sent.head =
    (sent.line1, sent.sep.1 :: sent.sep.2 :: (headerLine sent.first ++ headerLines sent.others)) := by
  refine eatLine_stops readable.line1 ?_
  rcases readable.sep with shape | shape <;> rw [shape] <;> rfl

/-- The header lines of the head are accepted and stored. -/
theorem lines (readable : sent.Readable) :
    (decodeLines (eatLine sent.head).2.length .empty (eatLine sent.head).2).accepted = true ∧
      (decodeLines (eatLine sent.head).2.length .empty (eatLine sent.head).2).headers =
        storeAll .empty (sent.first :: sent.others) := by
  rw [readable.eatLine_head]
  obtain ⟨accepted, stored⟩ := decodeLines_headerLine (readable.headers _ List.mem_cons_self)
    (headerLine sent.first ++ headerLines sent.others).length.succ .empty sent.sep.1 sent.sep.2
    (stops_headerLines sent.others)
  have enough : sent.others.length ≤ (headerLine sent.first ++ headerLines sent.others).length.succ := by
    have long : ∀ hds : List (Bytes × Bytes), hds.length ≤ (headerLines hds).length := by
      intro hds
      induction hds with
      | nil => rfl
      | cons hd rest ih =>
          simp only [headerLines, List.flatMap_cons, List.length_append, List.length_cons] at ih ⊢
          omega
    have := long sent.others
    rw [List.length_append]
    omega
  simp only [List.length_cons, accepted, stored]
  exact decodeLines_headerLines
    (fun hd among => readable.headers hd (List.mem_cons_of_mem _ among)) enough _

theorem take_wire (trailing : Bytes) :
    (sent.wire ++ trailing).take sent.head.length = sent.head ∧
      (sent.wire ++ trailing).drop sent.head.length =
        13 :: 10 :: 13 :: 10 :: (sent.body ++ trailing) := by
  rw [wire, List.append_assoc, List.take_left, List.drop_left]
  exact ⟨rfl, rfl⟩

theorem headOf_wire (readable : sent.Readable) (trailing : Bytes) :
    (headOf (sent.wire ++ trailing) sent.head.length).Accepts ∧
      (headOf (sent.wire ++ trailing) sent.head.length).msg =
        { cleared with
          headers := storeAll .empty (sent.first :: sent.others)
          scanned := sent.head.length + 4
          contentLen := sent.body.length } := by
  obtain ⟨accepted, stored⟩ := readable.lines
  have accepts : (headOf (sent.wire ++ trailing) sent.head.length).Accepts := by
    rw [accepts_headOf, (take_wire trailing).1]
    exact accepted
  refine ⟨accepts, ?_⟩
  have fresh : ({ cleared with scanned := sent.head.length } : HttpMsg).headers = .empty := rfl
  have small := readable.small
  have size : toSize (sent.body.length : ℤ) = sent.body.length := by
    rw [toSize]
    omega
  rw [headOf, readHead_accepts accepts, (take_wire trailing).1, fresh, stored, endHead,
    readable.contentLength, atoi_decimal small, size]

/-- The start line, and what stands behind it. -/
theorem line1_wire (readable : sent.Readable) (trailing : Bytes) :
    (headOf (sent.wire ++ trailing) sent.head.length).line1 = sent.line1 ∧
      ∃ rest, (headOf (sent.wire ++ trailing) sent.head.length).buf =
        sent.line1 ++ sent.sep.1 :: rest := by
  obtain ⟨line1, buf⟩ := buf_readHead { cleared with scanned := sent.head.length }
    ((sent.wire ++ trailing).take sent.head.length) []
  have first := head?_decodeLines (eatLine sent.head).2.length cleared.headers (eatLine sent.head).2
  rw [(take_wire trailing).1] at line1 buf
  rw [readable.eatLine_head] at line1 buf first
  rw [headOf, (take_wire trailing).1]
  refine ⟨line1, ?_⟩
  obtain ⟨rest, shape⟩ := List.head?_eq_some_iff.mp first
  refine ⟨rest, ?_⟩
  rw [buf, List.append_nil]
  exact congrArg (sent.line1 ++ ·) shape

/-- The decoder reads the number of the bytes of the body. -/
theorem bodyLength_wire (readable : sent.Readable) (trailing : Bytes) :
    bodyLength (sent.wire ++ trailing) sent.head.length = sent.body.length := by
  have stored : headersOf sent.head = storeAll .empty (sent.first :: sent.others) := readable.lines.2
  rw [bodyLength, HttpMsg.contentLength, (take_wire trailing).1, stored, readable.contentLength,
    atoi_decimal readable.small]

theorem drop_wire (trailing : Bytes) :
    (sent.wire ++ trailing).drop (sent.head.length + 4) = sent.body ++ trailing := by
  rw [← List.drop_drop, (take_wire trailing).2]
  rfl

/-- **A message that can be read back is read back**, whatever follows it. -/
theorem tryDecode_wire (readable : sent.Readable) (trailing : Bytes) (copyBody : Bool) :
    let d := cleared.tryDecode (sent.wire ++ trailing) copyBody
    d.outcome = .ok .complete ∧ d.line1 = sent.line1 ∧
      (∃ rest, d.buf = sent.line1 ++ sent.sep.1 :: rest) ∧
      d.msg.headers = storeAll .empty (sent.first :: sent.others) ∧
      d.msg.getBody = sent.body ∧ d.msg.getByte = toInt32 sent.wire.length := by
  obtain ⟨accepts, msg⟩ := readable.headOf_wire trailing
  have headAt := readable.headAt trailing
  obtain ⟨line, rest, front⟩ := readable.line1_wire trailing
  have small := readable.small
  have number := readable.bodyLength_wire trailing
  have size : sent.wire.length = sent.head.length + 4 + sent.body.length := by
    simp only [wire, List.length_append, List.length_cons]
    omega
  have once := once_spec headAt accepts copyBody
  have nonneg : 0 ≤ bodyLength (sent.wire ++ trailing) sent.head.length := by omega
  have arrived : (sent.head.length + 4 + bodyLength (sent.wire ++ trailing) sent.head.length) % 2 ^ 64 ≤
      (sent.wire ++ trailing).length := by
    rw [number, List.length_append, size]
    push_cast
    omega
  obtain ⟨complete, -, body, count⟩ := once.takes arrived nonneg
  have buf := (headAt.tryDecode_eq accepts copyBody).2.2.2
  rw [List.take_length] at buf
  refine ⟨complete, once.line1.trans line, ⟨rest ++ (sent.wire ++ trailing).drop sent.head.length, ?_⟩,
    ?_, ?_, ?_⟩
  · rw [buf, front, List.append_assoc, List.cons_append]
  · rw [(once_eq headAt accepts copyBody).2.1, (decodeBody_headers _ _ _).1, msg]
  · rw [body, number, drop_wire, Int.toNat_natCast, List.take_left]
  · rw [count, number, size]
    push_cast
    rfl

end Readable

end Sent

/-! ## What `encode` sends -/

/-- The headers that `encode` writes, in order. -/
def written (m : HttpMsg) : List (Bytes × Bytes) :=
  m.headers.entries ++ [(ascii "Connection", ascii "Keep-Alive"),
    (ascii "Content-Length", decimal m.getBody.length)]

/-- The headers of the message that is read back. -/
def writtenHeaders (m : HttpMsg) : StringMap :=
  (m.headers.set (ascii "connection") (ascii "Keep-Alive")).set (ascii "content-length")
    (decimal m.getBody.length)

/-- The headers can be written, and the length of the body is an `int`. -/
structure Encodable (m : HttpMsg) : Prop where
  headers : ∀ hd ∈ m.headers.entries, PlainHeader hd ∧ hd.1.map toLower = hd.1
  body : m.getBody.length < 2 ^ 31

/-- A message behind its start line. -/
def sent (m : HttpMsg) (line1 : Bytes) (sep : UInt8 × UInt8) : Sent where
  line1 := line1
  sep := sep
  first := m.written.headD ([], [])
  others := m.written.tail
  body := m.getBody

theorem written_eq (m : HttpMsg) (line1 : Bytes) (sep : UInt8 × UInt8) :
    (m.sent line1 sep).first :: (m.sent line1 sep).others = m.written := by
  simp only [sent, written]
  cases m.headers.entries <;> rfl

/-- The line ends that follow the header lines stand before the next ones. -/
theorem flatMap_headerLine (hds : List (Bytes × Bytes)) :
    crlf ++ (hds.flatMap fun hd => headerLine hd ++ crlf) = headerLines hds ++ crlf := by
  induction hds with
  | nil => simp [headerLines]
  | cons hd rest ih =>
      have lines : headerLines (hd :: rest) = crlf ++ headerLine hd ++ headerLines rest := by
        simp [headerLines, crlf_eq]
      rw [List.flatMap_cons, lines, List.append_assoc (headerLine hd), ih]
      simp only [List.append_assoc]

theorem wire_sent (m : HttpMsg) (line1 : Bytes) (sep : UInt8 × UInt8) :
    (m.sent line1 sep).wire = line1 ++ [sep.1, sep.2] ++ m.wireRest := by
  have headers : (m.written.flatMap fun hd => headerLine hd ++ crlf) =
      headerLine (m.sent line1 sep).first ++ headerLines (m.sent line1 sep).others ++ crlf := by
    rw [← written_eq m line1 sep, List.flatMap_cons, List.append_assoc, flatMap_headerLine,
      List.append_assoc]
  have rest : m.wireRest = (m.written.flatMap fun hd => headerLine hd ++ crlf) ++ crlf ++
      m.getBody := by
    have connection : ascii "Connection: Keep-Alive" =
        ascii "Connection" ++ ascii ": " ++ ascii "Keep-Alive" := by simp [ascii]
    have contentLength : ascii "Content-Length: " = ascii "Content-Length" ++ ascii ": " := by
      simp [ascii]
    simp only [wireRest, written, List.flatMap_append, List.flatMap_cons, List.flatMap_nil,
      headerLine, connection, contentLength, List.append_assoc, List.append_nil]
  rw [rest, headers]
  simp [Sent.wire, Sent.head, crlf_eq, sent]

theorem plain_decimal (n : ℕ) : PlainHeader (ascii "Content-Length", decimal n) := by
  have digits : ∀ c ∈ decimal n, isSpace c = false :=
    fun c member => (isDigit_apart (isDigit_decimal c member)).1
  have word : IsWord (decimal n) := ⟨decimal_ne_nil n, digits⟩
  have name : IsWord (ascii "Content-Length") := by decide +kernel
  refine ⟨name, decimal_ne_nil n, ⟨?_, ?_⟩, word.plain⟩
  · cases shape : decimal n with
    | nil => rfl
    | cons c rest => simpa [shape] using digits c (by simp [shape])
  · cases last : (decimal n).getLast? with
    | none => rfl
    | some c => simpa [last] using digits c (List.mem_of_getLast? last)

theorem plain_connection : PlainHeader (ascii "Connection", ascii "Keep-Alive") :=
  ⟨by decide +kernel, by decide +kernel, by decide +kernel, by decide +kernel⟩

namespace Encodable

variable {m : HttpMsg} (encodable : m.Encodable)

include encodable

theorem plain_written : ∀ hd ∈ m.written, PlainHeader hd := by
  intro hd member
  rcases List.mem_append.mp member with own | added
  · exact (encodable.headers hd own).1
  · rcases List.mem_cons.mp added with rfl | added
    · exact plain_connection
    · rw [List.mem_singleton.mp added]
      exact plain_decimal _

/-- The decoder stores the headers of the message and the two that `encode` adds. -/
theorem storeAll_written : storeAll .empty m.written = m.writtenHeaders := by
  have own : storeAll .empty m.headers.entries = m.headers := by
    have lower : ∀ (hds : List (Bytes × Bytes)) (headers : StringMap),
        (∀ hd ∈ hds, hd.1.map toLower = hd.1) →
          storeAll headers hds = hds.foldl (fun map hd => map.set hd.1 hd.2) headers := by
      intro hds
      induction hds with
      | nil => exact fun _ _ => rfl
      | cons hd rest ih =>
          intro headers same
          have first := same hd List.mem_cons_self
          simp only [storeAll, List.foldl_cons, first]
          exact ih _ fun other among => same other (List.mem_cons_of_mem _ among)
    rw [lower _ _ fun hd member => (encodable.headers hd member).2]
    exact OrderedMap.foldl_set_entries m.headers
  have connection : (ascii "Connection").map toLower = ascii "connection" := by decide +kernel
  have contentLength : (ascii "Content-Length").map toLower = ascii "content-length" := by
    decide +kernel
  simp only [storeAll] at own ⊢
  simp only [written, List.foldl_append, own, List.foldl_cons, List.foldl_nil, connection,
    contentLength, writtenHeaders]

theorem readable {line1 : Bytes} {sep : UInt8 × UInt8} (plain : ∀ c ∈ line1, isEol c = false)
    (ends : sep = (10, 10) ∨ sep = (13, 10)) : (m.sent line1 sep).Readable where
  line1 := plain
  sep := ends
  headers := by
    rw [written_eq]
    exact encodable.plain_written
  contentLength := by
    rw [written_eq, encodable.storeAll_written, getValueFromMap, writtenHeaders,
      OrderedMap.find?_set, if_pos rfl]
    rfl
  small := encodable.body

end Encodable

end HttpMsg

/-! ## Requests -/

namespace HttpRequest

/-- A request that can be read back. -/
structure Encodable (req : HttpRequest) : Prop where
  message : req.toHttpMsg.Encodable
  method : IsWord req.method
  queryUri : IsWord req.queryUri
  version : IsWord req.version
  slash : req.queryUri.head? = some 47
  nulFree : req.NulFree
  fits : (req.requestLine ++ ascii "\n\n").length < 4096

/-- The request line is taken apart into its fields. -/
theorem decodeLine_requestLine {req : HttpRequest} (encodable : req.Encodable) (other : HttpRequest) :
    (other.decodeLine req.requestLine).1 = true ∧
      (other.decodeLine req.requestLine).2.method = req.method ∧
      (other.decodeLine req.requestLine).2.queryUri = req.queryUri ∧
      (other.decodeLine req.requestLine).2.version = req.version ∧
      ∃ version, (other.decodeLine req.requestLine).2.toHttpMsg =
        { other.toHttpMsg with version := version } := by
  have space : ascii " " = [32] := by simp [ascii]
  have words : eatWord req.requestLine = (req.method, 32 :: (req.queryUri ++ 32 :: req.version)) ∧
      eatWord (32 :: (req.queryUri ++ 32 :: req.version)) = (req.queryUri, 32 :: req.version) ∧
      eatWord (32 :: req.version) = (req.version, []) := by
    refine ⟨?_, ?_, ?_⟩
    · rw [requestLine, space]
      simpa using eatWord_word encodable.method (show isSpace 32 = true from rfl)
        (req.queryUri ++ 32 :: req.version)
    · rw [eatWord_space rfl, eatWord_word encodable.queryUri rfl]
    · rw [eatWord_space rfl, eatWord_last encodable.version]
  have accepted : ¬ (req.queryUri.length = 0 ∨ req.queryUri.head? ≠ some 47) := by
    simp [encodable.slash, encodable.queryUri.1]
  simp only [decodeLine, words, if_neg accepted, splitUri]
  split <;> exact ⟨trivial, rfl, rfl, rfl, _, rfl⟩

end HttpRequest

/-! ## Responses -/

namespace HttpResponse

/-- A response that can be read back. -/
structure Encodable (resp : HttpResponse) : Prop where
  message : resp.toHttpMsg.Encodable
  version : IsWord resp.version
  lower : -(2 ^ 31) ≤ resp.status
  upper : resp.status < 2 ^ 31
  trimmed : Trimmed resp.statusWord
  line : ∀ c ∈ resp.statusWord, isEol c = false
  nulFree : resp.NulFree
  fits : (resp.statusLine ++ crlf).length < 1024

theorem isWord_decimalInt (n : ℤ) : IsWord (decimalInt n) := by
  have digits : ∀ c ∈ decimal n.natAbs, isSpace c = false :=
    fun c member => (isDigit_apart (isDigit_decimal c member)).1
  unfold decimalInt
  split_ifs with negative
  · refine ⟨List.cons_ne_nil _ _, fun c member => ?_⟩
    rcases List.mem_cons.mp member with rfl | member
    · rfl
    · exact digits c member
  · exact ⟨decimal_ne_nil _, digits⟩

/-- The status line is taken apart into its fields. -/
theorem decodeLine_statusLine {resp : HttpResponse} (encodable : resp.Encodable)
    (other : HttpResponse) (memory : Bytes) :
    other.decodeLine resp.statusLine (resp.statusLine ++ memory) =
      { other with
        version := resp.version
        status := resp.status
        statusWord := resp.statusWord } := by
  have space : ascii " " = [32] := by simp [ascii]
  have status := isWord_decimalInt resp.status
  have line : resp.statusLine =
      resp.version ++ 32 :: (decimalInt resp.status ++ 32 :: resp.statusWord) := by
    simp [statusLine, space]
  have version : eatWord resp.statusLine =
      (resp.version, 32 :: (decimalInt resp.status ++ 32 :: resp.statusWord)) := by
    rw [line, eatWord_word encodable.version rfl]
  have behind : eatWord (32 :: (decimalInt resp.status ++ 32 :: resp.statusWord)) =
      (decimalInt resp.status, 32 :: resp.statusWord) := by
    rw [eatWord_space rfl, eatWord_word status rfl]
  have skipped : (32 :: (decimalInt resp.status ++ 32 :: resp.statusWord)).dropWhile isSpace =
      decimalInt resp.status ++ 32 :: resp.statusWord := by
    rw [List.dropWhile_cons_of_pos rfl, dropWhile_space_word status]
  -- The status is read from where its word begins.
  have place : (resp.statusLine ++ memory).drop (resp.statusLine.length -
      (decimalInt resp.status ++ 32 :: resp.statusWord).length) =
        decimalInt resp.status ++ (32 :: (resp.statusWord ++ memory)) := by
    have front : resp.statusLine.length - (decimalInt resp.status ++ 32 :: resp.statusWord).length =
        (resp.version ++ [32]).length := by
      rw [line]
      simp only [List.length_append, List.length_cons, List.length_nil]
      omega
    have whole : resp.statusLine ++ memory =
        (resp.version ++ [32]) ++ (decimalInt resp.status ++ (32 :: (resp.statusWord ++ memory))) := by
      simp [line]
    rw [front, whole, List.drop_left]
  have number : atoi (decimalInt resp.status ++ (32 :: (resp.statusWord ++ memory))) = resp.status :=
    atoi_decimalInt encodable.lower encodable.upper rfl
  simp only [decodeLine, version, behind, skipped, place, number, trimSpace_space
    (show isSpace 32 = true from rfl), trimSpace_trimmed encodable.trimmed]

end HttpResponse

/-! ## The round trip -/

/-- What is read back of a message. -/
structure Restores (m : HttpMsg) (read : HttpMsg) (count : ℤ) : Prop where
  version : read.version = m.version
  headers : read.headers = m.writtenHeaders
  body : read.getBody = m.getBody
  count : read.getByte = count

namespace HttpRequest

theorem requestLine_plain {req : HttpRequest} (encodable : req.Encodable) :
    req.requestLine ≠ [] ∧ ∀ c ∈ req.requestLine, isEol c = false := by
  refine ⟨by simp [requestLine, encodable.method.1], fun c member => ?_⟩
  simp only [requestLine, List.mem_append] at member
  have space : ∀ c ∈ ascii " ", isEol c = false := by decide +kernel
  rcases member with (((method | blank) | queryUri) | blank) | version
  · exact encodable.method.plain c method
  · exact space c blank
  · exact encodable.queryUri.plain c queryUri
  · exact space c blank
  · exact encodable.version.plain c version

/-- The bytes of a request are read back. -/
theorem tryDecode_sent {req : HttpRequest} (encodable : req.Encodable) (trailing : Bytes)
    (copyBody : Bool) :
    let wire := (req.sent req.requestLine (10, 10)).wire
    let d := cleared.tryDecode (wire ++ trailing) copyBody
    d.outcome = .ok .complete ∧ d.msg.method = req.method ∧ d.msg.queryUri = req.queryUri ∧
      Restores req.toHttpMsg d.msg.toHttpMsg (toInt32 wire.length) := by
  obtain ⟨nonempty, plain⟩ := requestLine_plain encodable
  have readable : (req.sent req.requestLine (10, 10)).Readable :=
    encodable.message.readable plain (.inl rfl)
  obtain ⟨outcome, found, -, headers, body, count⟩ := readable.tryDecode_wire trailing copyBody
  have line1 : (HttpMsg.cleared.tryDecode ((req.sent req.requestLine (10, 10)).wire ++ trailing)
      copyBody).line1 = req.requestLine := found
  have there : req.requestLine.length ≠ 0 :=
    fun empty => nonempty (List.length_eq_zero_iff.mp empty)
  obtain ⟨accepted, method, queryUri, version, _, below⟩ := decodeLine_requestLine encodable
    { cleared with toHttpMsg := (HttpMsg.cleared.tryDecode
      ((req.sent req.requestLine (10, 10)).wire ++ trailing) copyBody).msg }
  have fresh : cleared.toHttpMsg = HttpMsg.cleared := rfl
  rw [HttpMsg.written_eq, encodable.message.storeAll_written] at headers
  simp only [tryDecode, fresh, outcome, line1, if_pos there, accepted, if_true]
  refine ⟨trivial, method, queryUri, version, ?_, ?_, ?_⟩
  · rw [below]
    exact headers
  · rw [below]
    exact body
  · rw [below]
    exact count

end HttpRequest

namespace HttpResponse

theorem statusLine_plain {resp : HttpResponse} (encodable : resp.Encodable) :
    resp.statusLine ≠ [] ∧ ∀ c ∈ resp.statusLine, isEol c = false := by
  refine ⟨by simp [statusLine, encodable.version.1], fun c member => ?_⟩
  simp only [statusLine, List.mem_append] at member
  have space : ∀ c ∈ ascii " ", isEol c = false := by decide +kernel
  rcases member with (((version | blank) | status) | blank) | statusWord
  · exact encodable.version.plain c version
  · exact space c blank
  · exact (isWord_decimalInt resp.status).plain c status
  · exact space c blank
  · exact encodable.line c statusWord

/-- The bytes of a response are read back, whatever memory follows them. -/
theorem tryDecode_sent {resp : HttpResponse} (encodable : resp.Encodable)
    (trailing behind : Bytes) (copyBody : Bool) :
    let wire := (resp.sent resp.statusLine (13, 10)).wire
    let d := cleared.tryDecode (wire ++ trailing) behind copyBody
    d.outcome = .ok .complete ∧ d.msg.status = resp.status ∧ d.msg.statusWord = resp.statusWord ∧
      Restores resp.toHttpMsg d.msg.toHttpMsg (toInt32 wire.length) := by
  obtain ⟨nonempty, plain⟩ := statusLine_plain encodable
  have readable : (resp.sent resp.statusLine (13, 10)).Readable :=
    encodable.message.readable plain (.inr rfl)
  obtain ⟨outcome, found, ⟨rest, front⟩, headers, body, count⟩ :=
    readable.tryDecode_wire trailing copyBody
  have line1 : (HttpMsg.cleared.tryDecode ((resp.sent resp.statusLine (13, 10)).wire ++ trailing)
      copyBody).line1 = resp.statusLine := found
  have memory : (HttpMsg.cleared.tryDecode ((resp.sent resp.statusLine (13, 10)).wire ++ trailing)
      copyBody).buf ++ behind = resp.statusLine ++ (13 :: rest ++ behind) := by
    rw [front]
    exact List.append_assoc _ _ _
  have there : resp.statusLine.length ≠ 0 :=
    fun empty => nonempty (List.length_eq_zero_iff.mp empty)
  have fresh : cleared.toHttpMsg = HttpMsg.cleared := rfl
  rw [HttpMsg.written_eq, encodable.message.storeAll_written] at headers
  simp only [tryDecode, fresh, outcome, line1, if_pos there, memory,
    decodeLine_statusLine encodable]
  exact ⟨trivial, trivial, trivial, rfl, headers, body, count⟩

end HttpResponse

namespace HttpMsg

/-- **Decoding undoes encoding**: what `encode` appends for a request or a response, followed
by anything, is decoded to the same fields, headers and body, and `getByte` is what `encode`
returned. -/
theorem http_round_trip :
    (∀ (req : HttpRequest) (buf : Buffer) (trailing : Bytes) (copyBody : Bool), req.Encodable →
      ∃ wire, (req.encode buf).2.contents = buf.contents ++ wire ∧
        let d := HttpRequest.cleared.tryDecode (wire ++ trailing) copyBody
        d.outcome = .ok .complete ∧ d.msg.method = req.method ∧ d.msg.queryUri = req.queryUri ∧
          Restores req.toHttpMsg d.msg.toHttpMsg (req.encode buf).1) ∧
    ∀ (resp : HttpResponse) (buf : Buffer) (trailing behind : Bytes) (copyBody : Bool),
      resp.Encodable →
      ∃ wire, (resp.encode buf).2.contents = buf.contents ++ wire ∧
        let d := HttpResponse.cleared.tryDecode (wire ++ trailing) behind copyBody
        d.outcome = .ok .complete ∧ d.msg.status = resp.status ∧
          d.msg.statusWord = resp.statusWord ∧
          Restores resp.toHttpMsg d.msg.toHttpMsg (resp.encode buf).1 := by
  constructor
  · intro req buf trailing copyBody encodable
    have line : req.startLine = req.requestLine ++ [10, 10] := by
      have feeds : ascii "\n\n" = [10, 10] := by simp [ascii]
      rw [HttpRequest.startLine_eq encodable.nulFree, ← feeds, List.take_eq_self_iff]
      exact Nat.le_of_lt_succ encodable.fits
    have wire : (req.sent req.requestLine (10, 10)).wire = req.startLine ++ req.wireRest := by
      rw [wire_sent, line]
    obtain ⟨contents, count⟩ := req.encodeWith_spec req.startLine buf
    rw [← wire] at contents count
    refine ⟨_, contents, ?_⟩
    rw [show (req.encode buf).1 = _ from count]
    exact HttpRequest.tryDecode_sent encodable trailing copyBody
  · intro resp buf trailing behind copyBody encodable
    have line : resp.startLine = resp.statusLine ++ [13, 10] := by
      rw [← crlf_eq, HttpResponse.startLine_eq_iff encodable.nulFree]
      exact encodable.fits
    have wire : (resp.sent resp.statusLine (13, 10)).wire = resp.startLine ++ resp.wireRest := by
      rw [wire_sent, line]
    obtain ⟨contents, count⟩ := resp.encodeWith_spec resp.startLine buf
    rw [← wire] at contents count
    refine ⟨_, contents, ?_⟩
    rw [show (resp.encode buf).1 = _ from count]
    exact HttpResponse.tryDecode_sent encodable trailing behind copyBody

/-- A request with a header and a body that contains an empty line. -/
def posted : HttpRequest :=
  { HttpRequest.cleared with
    method := ascii "POST"
    queryUri := ascii "/a?b=c"
    headers := OrderedMap.empty.set (ascii "host") (ascii "x")
    body := ascii "\r\n\r\n" }

theorem encodable_posted : posted.Encodable where
  message := by
    refine ⟨fun hd member => ?_, by decide +kernel⟩
    obtain rfl : hd = (ascii "host", ascii "x") := by
      have only : posted.headers.entries = [(ascii "host", ascii "x")] := rfl
      rw [only] at member
      exact List.mem_singleton.mp member
    exact ⟨⟨by decide +kernel, by decide +kernel, by decide +kernel, by decide +kernel⟩,
      by decide +kernel⟩
  method := by decide +kernel
  queryUri := by decide +kernel
  version := by decide +kernel
  slash := by decide +kernel
  nulFree := by decide +kernel
  fits := by decide +kernel

theorem encodable_notFound : HttpResponse.cleared.setNotFound.Encodable where
  message := ⟨fun _ member => absurd member List.not_mem_nil, by decide +kernel⟩
  version := by decide +kernel
  lower := by decide
  upper := by decide
  trimmed := by decide +kernel
  line := by decide +kernel
  nulFree := by decide +kernel
  fits := by decide +kernel

theorem http_round_trip_posted :
    (∃ wire, (posted.encode .new).2.contents = Buffer.new.contents ++ wire ∧
      (HttpRequest.cleared.tryDecode (wire ++ ascii "GET") true).outcome = .ok .complete) ∧
    ∃ wire, (HttpResponse.cleared.setNotFound.encode .new).2.contents = Buffer.new.contents ++ wire ∧
      (HttpResponse.cleared.tryDecode (wire ++ []) [] false).outcome = .ok .complete := by
  obtain ⟨wire, contents, outcome, -⟩ :=
    http_round_trip.1 posted .new (ascii "GET") true encodable_posted
  obtain ⟨wire', contents', outcome', -⟩ :=
    http_round_trip.2 HttpResponse.cleared.setNotFound .new [] [] false encodable_notFound
  exact ⟨⟨wire, contents, outcome⟩, wire', contents', outcome'⟩

end HttpMsg

end Handy
