import Handy.Http.Incremental
import Handy.Http.Lines

/-!
# Looking headers up

The decoder stores every header under its name in lower case, and `getHeader` compares names
as they are. So a header is found under the spelling without upper-case letters and under no
other one. The decoder itself asks for `Expect`, which no header is stored under, and
`Continue100` is never returned (`lookup_spelling`).
-/

set_option autoImplicit false

namespace Handy

theorem toLower_toLower (c : UInt8) : toLower (toLower c) = toLower c := by
  unfold toLower
  split_ifs with upper again
  · simp only [UInt8.le_iff_toNat_le, UInt8.toNat_add, UInt8.reduceToNat] at upper again
    omega
  · rfl
  · rfl

/-- A name without upper-case letters. -/
def IsLower (name : Bytes) : Prop := name.map toLower = name

instance (name : Bytes) : Decidable (IsLower name) := inferInstanceAs (Decidable (_ = _))

theorem isLower_lowered (name : Bytes) : IsLower (name.map toLower) := by
  rw [IsLower, List.map_map]
  exact List.map_congr_left fun c _ => toLower_toLower c

namespace HttpMsg

/-! ## What is stored -/

/-- All names are in lower case, and no value is empty. -/
def Lowered (headers : StringMap) : Prop := ∀ entry ∈ headers.entries, IsLower entry.1 ∧ entry.2 ≠ []

theorem lowered_empty : Lowered .empty := fun _ member => absurd member List.not_mem_nil

theorem Lowered.set {headers : StringMap} (lowered : Lowered headers) {name value : Bytes}
    (lower : IsLower name) (nonempty : value ≠ []) : Lowered (headers.set name value) := by
  intro entry member
  rcases OrderedMap.mem_of_mem_set member with rfl | old
  · exact ⟨lower, nonempty⟩
  · exact lowered entry old

/-- The loop over the header lines stores lower-case names. -/
theorem decodeLines_lowered (fuel : ℕ) {headers : StringMap} (lowered : Lowered headers)
    (req : Bytes) : Lowered (decodeLines fuel headers req).headers := by
  induction fuel generalizing headers req with
  | zero => cases req <;> simpa [decodeLines] using lowered
  | succ fuel ih =>
      rcases req with _ | ⟨c, _ | ⟨d, req⟩⟩
      · simpa [decodeLines] using lowered
      · simpa [decodeLines] using lowered
      · rcases shape : eatLine req with ⟨ln, rest⟩
        by_cases named : Named ln
        · rw [decodeLines_named named fuel headers c d shape]
          refine ih (lowered.set ?_ named.2.1) rest
          rw [← List.map_dropLast]
          exact isLower_lowered _
        · rw [decodeLines_unnamed named fuel headers c d shape]
          exact lowered

/-- A header is not found under a name with an upper-case letter. -/
theorem Lowered.find?_upper {headers : StringMap} (lowered : Lowered headers) {name : Bytes}
    (upper : ¬ IsLower name) : headers.find? name = none := by
  cases found : headers.find? name with
  | none => rfl
  | some value =>
      exact absurd (lowered _ (OrderedMap.mem_entries_iff.mpr found)).1 upper

/-- **Two spellings find the same exactly when they are the same**, or there is nothing to find. -/
theorem Lowered.getHeader_iff {m : HttpMsg} (lowered : Lowered m.headers) (name : Bytes) :
    m.getHeader name = m.getHeader (name.map toLower) ↔
      IsLower name ∨ m.getHeader (name.map toLower) = [] := by
  by_cases lower : IsLower name
  · rw [show name.map toLower = name from lower]
    exact iff_of_true rfl (.inl lower)
  · have missing : m.getHeader name = [] := by
      rw [getHeader, getValueFromMap, lowered.find?_upper lower, Option.getD_none]
    rw [missing, eq_comm]
    exact ⟨.inr, fun either => either.resolve_left lower⟩

/-- The decoder does not find the header that it asks for. -/
theorem Lowered.expect {headers : StringMap} (lowered : Lowered headers) :
    getValueFromMap headers (ascii "Expect") = [] := by
  rw [getValueFromMap, lowered.find?_upper (by decide +kernel), Option.getD_none]

/-! ## Calls -/

theorem readHead_lowered {m : HttpMsg} (lowered : Lowered m.headers) (req rest : Bytes) :
    Lowered (m.readHead req rest).msg.headers ∧
      (m.readHead req rest).answer ≠ some .continue100 := by
  have lines := decodeLines_lowered (eatLine req).2.length lowered (eatLine req).2
  have silent : (getValueFromMap (decodeLines (eatLine req).2.length m.headers
      (eatLine req).2).headers (ascii "Expect")).length = 0 := by
    rw [lines.expect]
    rfl
  simp only [readHead, endHead, getHeader, silent]
  split_ifs with rejected expects
  · exact ⟨lines, by simp⟩
  · exact absurd rfl expects.2
  · exact ⟨lines, by simp⟩

theorem decodeHead_lowered {m : HttpMsg} (lowered : Lowered m.headers) (buf : Bytes) :
    Lowered (m.decodeHead buf).msg.headers ∧ (m.decodeHead buf).answer ≠ some .continue100 := by
  simp only [decodeHead]
  split_ifs with found empty empty
  · exact ⟨lowered, by simp⟩
  · exact readHead_lowered (m := { m with scanned := (scan (buf.drop m.scanned) m.scanned).1 })
      lowered _ _
  · exact ⟨lowered, by simp⟩
  · exact absurd rfl empty

theorem decodeBody_headers (m : HttpMsg) (buf : Bytes) (copyBody : Bool) :
    (m.decodeBody buf copyBody).2.headers = m.headers ∧
      (m.decodeBody buf copyBody).1 ≠ .ok .continue100 := by
  simp only [decodeBody, takeBody]
  split_ifs <;> simp

/-- **No call stores another name or returns `Continue100`.** -/
theorem tryDecode_lowered {m : HttpMsg} (lowered : Lowered m.headers) (buf : Bytes)
    (copyBody : Bool) :
    Lowered (m.tryDecode buf copyBody).msg.headers ∧
      (m.tryDecode buf copyBody).outcome ≠ .ok .continue100 := by
  obtain ⟨stored, silent⟩ := decodeHead_lowered lowered buf
  unfold tryDecode
  split_ifs with complete idle
  · exact ⟨lowered, by simp⟩
  · cases answer : (m.decodeHead buf).answer with
    | some r =>
        simp only [answer]
        refine ⟨stored, fun same => silent ?_⟩
        rw [answer, Except.ok.inj same]
    | none =>
        simp only [answer]
        rw [(decodeBody_headers _ _ _).1]
        exact ⟨stored, (decodeBody_headers _ _ _).2⟩
  · rw [show (m.decodeBody buf copyBody).2.headers = m.headers from (decodeBody_headers _ _ _).1]
    exact ⟨lowered, (decodeBody_headers _ _ _).2⟩

end HttpMsg

/-- A property that every call of a decoder keeps holds after all calls, and what it gives for
one call holds of all of them. -/
theorem feed_keeps {M : Type} (decode : Decoder M) (keeps : M → Prop)
    (gives : Except DecodeFault Result → Prop)
    (step : ∀ {msg : M}, keeps msg → ∀ buf behind,
      keeps (decode msg buf behind).msg ∧ gives (decode msg buf behind).outcome)
    {msg : M} (start : keeps msg) (mem : Bytes) (calls : List (ℕ × Bytes)) :
    keeps (feed decode msg mem calls).msg ∧
      ∀ outcome ∈ (feed decode msg mem calls).outcomes, gives outcome := by
  induction calls generalizing msg mem with
  | nil => exact ⟨start, by simp [feed]⟩
  | cons call rest ih =>
      obtain ⟨kept, given⟩ := step start (mem.take call.1) call.2
      obtain ⟨after, others⟩ := ih kept
        ((decode msg (mem.take call.1) call.2).buf ++ mem.drop call.1)
      refine ⟨after, fun outcome member => ?_⟩
      rcases List.mem_cons.mp member with rfl | member
      · exact given
      · exact others outcome member

/-! ## Requests and responses -/

theorem HttpRequest.tryDecode_lowered {req : HttpRequest} (lowered : HttpMsg.Lowered req.headers)
    (buf : Bytes) (copyBody : Bool) :
    HttpMsg.Lowered (req.tryDecode buf copyBody).msg.headers ∧
      (req.tryDecode buf copyBody).outcome ≠ .ok .continue100 := by
  obtain ⟨stored, silent⟩ := HttpMsg.tryDecode_lowered lowered buf copyBody
  cases returns : (req.toHttpMsg.tryDecode buf copyBody).outcome with
  | error fault =>
      simp only [tryDecode, returns]
      exact ⟨stored, by simp⟩
  | ok r =>
      rw [returns] at silent
      by_cases there : (req.toHttpMsg.tryDecode buf copyBody).line1.length ≠ 0
      · obtain ⟨version, msg⟩ := toHttpMsg_decodeLine
          { req with toHttpMsg := (req.toHttpMsg.tryDecode buf copyBody).msg }
          (req.toHttpMsg.tryDecode buf copyBody).line1
        simp only [tryDecode, returns, if_pos there]
        rw [msg]
        refine ⟨stored, ?_⟩
        split_ifs
        · exact silent
        · simp
      · simp only [tryDecode, returns, if_neg there]
        exact ⟨stored, silent⟩

theorem HttpResponse.tryDecode_lowered {resp : HttpResponse}
    (lowered : HttpMsg.Lowered resp.headers) (buf behind : Bytes) (copyBody : Bool) :
    HttpMsg.Lowered (resp.tryDecode buf behind copyBody).msg.headers ∧
      (resp.tryDecode buf behind copyBody).outcome ≠ .ok .continue100 := by
  obtain ⟨stored, silent⟩ := HttpMsg.tryDecode_lowered lowered buf copyBody
  cases returns : (resp.toHttpMsg.tryDecode buf copyBody).outcome with
  | error fault =>
      simp only [tryDecode, returns]
      exact ⟨stored, by simp⟩
  | ok r =>
      rw [returns] at silent
      simp only [tryDecode, returns]
      split_ifs
      · exact ⟨stored, silent⟩
      · exact ⟨stored, silent⟩

/-- Two spellings of a name find the same in a message only if they are the same or there is
nothing to find, and no call has returned `Continue100`. -/
structure FoundAsStored (m : HttpMsg) (outcomes : List (Except DecodeFault Result)) : Prop where
  lookup : ∀ name, m.getHeader name = m.getHeader (name.map toLower) ↔
    IsLower name ∨ m.getHeader (name.map toLower) = []
  silent : ∀ outcome ∈ outcomes, outcome ≠ .ok .continue100

/-- **What a decoder has stored is found under one spelling only, and it never answers
`Continue100`**, over all sequences of calls from a cleared request or response. -/
theorem lookup_spelling (copyBody : Bool) (s : Bytes) (calls : List (ℕ × Bytes)) :
    FoundAsStored (feed (HttpRequest.decoder copyBody) .cleared s calls).msg.toHttpMsg
        (feed (HttpRequest.decoder copyBody) .cleared s calls).outcomes ∧
      FoundAsStored (feed (HttpResponse.decoder copyBody) .cleared s calls).msg.toHttpMsg
        (feed (HttpResponse.decoder copyBody) .cleared s calls).outcomes := by
  have request : HttpMsg.Lowered HttpRequest.cleared.headers := HttpMsg.lowered_empty
  have response : HttpMsg.Lowered HttpResponse.cleared.headers := HttpMsg.lowered_empty
  constructor
  · obtain ⟨lowered, silent⟩ := feed_keeps (HttpRequest.decoder copyBody)
      (fun req => HttpMsg.Lowered req.headers) (· ≠ .ok .continue100)
      (fun lowered buf _ => HttpRequest.tryDecode_lowered lowered buf copyBody)
      request s calls
    exact ⟨fun name => HttpMsg.Lowered.getHeader_iff lowered name, silent⟩
  · obtain ⟨lowered, silent⟩ := feed_keeps (HttpResponse.decoder copyBody)
      (fun resp => HttpMsg.Lowered resp.headers) (· ≠ .ok .continue100)
      (fun lowered buf behind => HttpResponse.tryDecode_lowered lowered buf behind copyBody)
      response s calls
    exact ⟨fun name => HttpMsg.Lowered.getHeader_iff lowered name, silent⟩

/-- A request that waits for the permission to send its body. -/
def expecting : Bytes :=
  ascii "POST / HTTP/1.1\r\nExpect: 100-continue\r\nContent-Length: 5\r\n\r\n"

/-- It is not given, since the header is not found. -/
theorem expectation_is_not_met :
    let d := HttpRequest.cleared.tryDecode expecting true
    d.outcome = .ok .notComplete ∧ d.msg.getHeader (ascii "Expect") = [] ∧
      d.msg.getHeader (ascii "expect") = ascii "100-continue" := by
  decide +kernel

end Handy
