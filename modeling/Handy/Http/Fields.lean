import Handy.Http.Lengths
import Handy.Http.RoundTrip

/-!
# Header fields

Which header lines the decoder reads. A field has a name, a colon and a value, with white
space on either side of the value as the sender likes. The decoder splits the line at its
first white space, and looks for the colon at the end of the word that it finds there. So it
reads the fields of a head exactly when each has white space behind its colon and a value that
is not blank (`HttpMsg.fields_read_iff`). It rejects the first other line, unless the word ends
with a later colon: then it stores the field under that word.
-/

set_option autoImplicit false

namespace Handy

/-- A header field, as a sender may write it. -/
structure Field where
  name : Bytes
  gap : Bytes
  value : Bytes
  tail : Bytes
  nonempty : name ≠ []
  token : ∀ c ∈ name, isSpace c = false ∧ c ≠ 58
  blank : ∀ c ∈ gap ++ tail, isSpace c = true
  line : ∀ c ∈ gap ++ value ++ tail, isEol c = false

namespace Field

/-- What stands behind the colon. -/
def behind (f : Field) : Bytes := f.gap ++ f.value ++ f.tail

/-- The line of a field. -/
def text (f : Field) : Bytes := f.name ++ [58] ++ f.behind

/-- The name that the field is found under. -/
def key (f : Field) : Bytes := f.name.map toLower

/-- There is white space behind the colon, and a value behind it. -/
def Spaced (f : Field) : Prop := f.behind.head?.any isSpace = true ∧ trimSpace f.value ≠ []

/-- The value of the last field with a name. -/
def lastOf (fields : List Field) (key : Bytes) : Option Bytes :=
  (fields.reverse.find? fun f => f.key = key).map fun f => trimSpace f.value

theorem text_plain (f : Field) : ∀ c ∈ f.text, isEol c = false := by
  intro c member
  simp only [text, List.mem_append, List.mem_singleton] at member
  rcases member with (name | rfl) | behind
  · refine Bool.eq_false_iff.mpr fun eol => ?_
    exact Bool.false_ne_true ((f.token c name).1.symm.trans (isEol_isSpace eol))
  · rfl
  · exact f.line c behind

theorem text_ne_nil (f : Field) : f.text ≠ [] := by
  simp [text]

theorem colon_not_mem_key (f : Field) : 58 ∉ f.key := by
  intro member
  obtain ⟨c, among, lower⟩ := List.mem_map.mp member
  have colon : c = 58 := by
    unfold toLower at lower
    split_ifs at lower with upper
    · have shifted : c = 26 := by
        rw [← UInt8.toNat_inj, UInt8.toNat_add] at lower
        rw [← UInt8.toNat_inj]
        have small := c.toNat_lt
        simp only [UInt8.reduceToNat] at lower ⊢
        omega
      rw [shifted] at upper
      exact absurd upper (by decide)
    · exact lower
  exact (f.token c among).2 colon

/-- White space on either side of a value does not matter. -/
theorem trimSpace_between {front back : Bytes} (before : ∀ c ∈ front, isSpace c = true)
    (after : ∀ c ∈ back, isSpace c = true) (s : Bytes) :
    trimSpace (front ++ s ++ back) = trimSpace s := by
  rw [trimSpace, trimSpace, List.append_assoc, List.dropWhile_append_of_pos before,
    List.dropWhile_append]
  split_ifs with empty
  · rw [List.isEmpty_iff.mp empty, List.dropWhile_eq_nil_iff.mpr after]
  · have turned : ∀ c ∈ back.reverse, isSpace c = true :=
      fun c member => after c (List.mem_reverse.mp member)
    rw [List.rdropWhile, List.reverse_append, List.dropWhile_append_of_pos turned, List.rdropWhile]

theorem trimSpace_behind (f : Field) : trimSpace f.behind = trimSpace f.value :=
  trimSpace_between (fun c member => f.blank c (List.mem_append_left _ member))
    (fun c member => f.blank c (List.mem_append_right _ member)) f.value

/-! ## The line of a field -/

/-- The word that the decoder takes for the name of a field, behind the colon. -/
def excess (f : Field) : Bytes := f.behind.takeWhile fun c => !isSpace c

theorem splitLine_text (f : Field) : HttpMsg.splitLine f.text =
    ⟨[], f.name ++ [58] ++ f.excess, f.behind.dropWhile fun c => !isSpace c⟩ := by
  have word : IsWord (f.name ++ [58] ++ f.excess) := by
    refine ⟨by simp, fun c member => ?_⟩
    simp only [List.mem_append, List.mem_singleton] at member
    rcases member with (name | rfl) | excess
    · exact (f.token c name).1
    · rfl
    · simpa using List.mem_takeWhile_imp excess
  have parts := HttpMsg.splitLine_parts (show ∀ c ∈ ([] : Bytes), isSpace c = true by simp) word
    (stops_dropWhile (fun c => !isSpace c) f.behind)
  rwa [List.nil_append, List.append_assoc _ f.excess, excess, List.takeWhile_append_dropWhile,
    ← text] at parts

theorem excess_eq_nil_iff (f : Field) : f.excess = [] ↔ f.behind.head?.all isSpace = true := by
  unfold excess
  cases f.behind with
  | nil => simp
  | cons c rest => cases space : isSpace c <;> simp [space]

theorem spaced_iff (f : Field) : f.Spaced ↔ f.excess = [] ∧ trimSpace f.value ≠ [] := by
  rw [excess_eq_nil_iff, Spaced, ← trimSpace_behind]
  cases f.behind with
  | nil => simp [trimSpace]
  | cons c rest => simp

theorem dropWhile_behind {f : Field} (none : f.excess = []) :
    (f.behind.dropWhile fun c => !isSpace c) = f.behind := by
  have joined := List.takeWhile_append_dropWhile (p := fun c => !isSpace c) (l := f.behind)
  rwa [← excess, none, List.nil_append] at joined

/-- A spaced field is stored under its key. -/
theorem Spaced.named {f : Field} (spaced : f.Spaced) : HttpMsg.Named f.text ∧
    ((HttpMsg.splitLine f.text).name.map toLower).dropLast = f.key ∧
    trimSpace (HttpMsg.splitLine f.text).rest = trimSpace f.value := by
  obtain ⟨none, value⟩ := f.spaced_iff.mp spaced
  rw [HttpMsg.Named, splitLine_text]
  simp only [none, dropWhile_behind none, trimSpace_behind, List.append_nil]
  exact ⟨⟨by simp, value, by simp⟩, by simp [key], trivial⟩

/-- Another field is stored under a word with a colon, if it is stored at all. -/
theorem colon_of_named {f : Field} (unspaced : ¬ f.Spaced) (named : HttpMsg.Named f.text) :
    58 ∈ ((HttpMsg.splitLine f.text).name.map toLower).dropLast := by
  rw [HttpMsg.Named, splitLine_text] at named
  rw [splitLine_text]
  obtain ⟨-, value, -⟩ := named
  have excess : f.excess ≠ [] := by
    intro none
    simp only [dropWhile_behind none, trimSpace_behind] at value
    exact unspaced (f.spaced_iff.mpr ⟨none, value⟩)
  simp only [List.map_append, List.map_cons, List.map_nil]
  rw [List.dropLast_append_of_ne_nil (by simpa using excess)]
  simp [toLower]

end Field

namespace HttpMsg

/-! ## The lines of a head -/

/-- The lines of fields, each with the line end that precedes it. -/
def fieldLines (fields : List Field) : Bytes := fields.flatMap fun f => 13 :: 10 :: f.text

/-- The headers that the fields of a head are stored in. -/
def storeFields (headers : StringMap) (fields : List Field) : StringMap :=
  fields.foldl (fun headers f => headers.set f.key (trimSpace f.value)) headers

theorem stops_fieldLines (fields : List Field) : Stops (fun c => !isEol c) (fieldLines fields) := by
  cases fields <;> rfl

theorem eatLine_fieldLines (f : Field) (fields : List Field) :
    eatLine (f.text ++ fieldLines fields) = (f.text, fieldLines fields) :=
  eatLine_stops f.text_plain (stops_fieldLines fields)

theorem find?_storeFields (headers : StringMap) (fields : List Field) (key : Bytes) :
    (storeFields headers fields).find? key = (Field.lastOf fields key).or (headers.find? key) := by
  induction fields generalizing headers with
  | nil => rfl
  | cons f rest ih =>
      rw [storeFields, List.foldl_cons, ← storeFields, ih, OrderedMap.find?_set, Field.lastOf,
        Field.lastOf, List.reverse_cons, List.find?_append]
      cases rest.reverse.find? fun f => f.key = key with
      | some last => simp
      | none => by_cases same : f.key = key <;> simp [same]

/-- A header that is stored stays. -/
theorem decodeLines_keeps (fuel : ℕ) {headers : StringMap} {key : Bytes}
    (stored : headers.find? key ≠ none) (req : Bytes) :
    (decodeLines fuel headers req).headers.find? key ≠ none := by
  induction fuel generalizing headers req with
  | zero => cases req <;> simpa [decodeLines] using stored
  | succ fuel ih =>
      rcases req with _ | ⟨c, _ | ⟨d, req⟩⟩
      · simpa [decodeLines] using stored
      · simpa [decodeLines] using stored
      · rcases shape : eatLine req with ⟨ln, rest⟩
        by_cases named : Named ln
        · rw [decodeLines_named named fuel headers c d shape]
          refine ih ?_ rest
          rw [OrderedMap.find?_set]
          split_ifs with same
          · simp
          · exact stored
        · rw [decodeLines_unnamed named fuel headers c d shape]
          exact stored

/-- The loop over the lines of spaced fields stores them. -/
theorem decodeLines_spaced {fields : List Field} (spaced : ∀ f ∈ fields, f.Spaced) {fuel : ℕ}
    (enough : fields.length ≤ fuel) (headers : StringMap) :
    (decodeLines fuel headers (fieldLines fields)).accepted = true ∧
      (decodeLines fuel headers (fieldLines fields)).headers = storeFields headers fields := by
  induction fields generalizing fuel headers with
  | nil => cases fuel <;> exact ⟨rfl, rfl⟩
  | cons f rest ih =>
      obtain ⟨fuel, rfl⟩ : ∃ fewer, fuel = fewer + 1 :=
        Nat.exists_eq_add_of_le' (Nat.le_of_add_left_le enough)
      obtain ⟨named, key, value⟩ := (spaced f List.mem_cons_self).named
      have lines : fieldLines (f :: rest) = 13 :: 10 :: (f.text ++ fieldLines rest) := by
        simp [fieldLines]
      rw [lines, decodeLines_named named fuel headers 13 10 (eatLine_fieldLines f rest), key, value]
      exact ih (fun other among => spaced other (List.mem_cons_of_mem _ among))
        (Nat.le_of_succ_le_succ enough) _

/-- When the lines are accepted and no name with a colon is stored, the fields are spaced. -/
theorem spaced_of_decodeLines {fields : List Field} {fuel : ℕ} {headers : StringMap}
    (accepted : (decodeLines fuel headers (fieldLines fields)).accepted = true)
    (colonless : ∀ key, 58 ∈ key →
      (decodeLines fuel headers (fieldLines fields)).headers.find? key = none) :
    ∀ f ∈ fields, f.Spaced := by
  induction fields generalizing fuel headers with
  | nil => simp
  | cons f rest ih =>
      have lines : fieldLines (f :: rest) = 13 :: 10 :: (f.text ++ fieldLines rest) := by
        simp [fieldLines]
      rw [lines] at accepted colonless
      cases fuel with
      | zero => cases accepted
      | succ fuel =>
          have eaten := eatLine_fieldLines f rest
          by_cases named : Named f.text
          · rw [decodeLines_named named fuel headers 13 10 eaten] at accepted colonless
            have spaced : f.Spaced := by
              by_contra unspaced
              refine decodeLines_keeps fuel ?_ _ (colonless _ (Field.colon_of_named unspaced named))
              rw [OrderedMap.find?_set, if_pos rfl]
              exact Option.some_ne_none _
            intro other member
            rcases List.mem_cons.mp member with rfl | among
            · exact spaced
            · exact ih accepted colonless other among
          · rw [decodeLines_unnamed named fuel headers 13 10 eaten] at accepted
            have empty := (of_decide_eq_true accepted).1
            rw [Field.splitLine_text] at empty
            simp at empty

end HttpMsg

/-! ## Heads -/

/-- A start line and any fields. -/
structure HeadText where
  start : Bytes
  line : ∀ c ∈ start, isEol c = false
  fields : List Field

namespace HeadText

open HttpMsg

/-- The head on the wire, with the empty line behind it. -/
def bytes (head : HeadText) : Bytes :=
  head.start ++ crlf ++ (head.fields.flatMap fun f => f.text ++ crlf) ++ crlf

/-- The head without its last two line ends. -/
def lines (head : HeadText) : Bytes := head.start ++ fieldLines head.fields

variable (head : HeadText) (rest : Bytes)

theorem bytes_append : head.bytes ++ rest = head.lines ++ (13 :: 10 :: 13 :: 10 :: rest) := by
  have turned : ∀ fields : List Field, 13 :: 10 :: (fields.flatMap fun f => f.text ++ crlf) =
      fieldLines fields ++ [13, 10] := by
    intro fields
    induction fields with
    | nil => rfl
    | cons f fields ih =>
        rw [fieldLines, List.flatMap_cons, List.flatMap_cons, ← fieldLines,
          List.append_assoc (13 :: 10 :: f.text), ← ih, crlf_eq]
        simp
  have joined := congrArg (fun middle => head.start ++ (middle ++ (13 :: 10 :: rest)))
    (turned head.fields)
  rw [bytes, lines, crlf_eq]
  rw [crlf_eq] at joined
  simpa using joined

theorem passes_lines : Passes head.lines := by
  have start : Passes head.start := passes_plain fun c member => ne_cr_of_plain (head.line c member)
  refine start.append ?_
  induction head.fields with
  | nil => exact fun _ _ _ => rfl
  | cons f fields ih =>
      have first : fieldLines (f :: fields) = (13 :: 10 :: f.text) ++ fieldLines fields := by
        simp [fieldLines]
      rw [first]
      exact (passes_lineEnd f.text_ne_nil f.text_plain).append ih

theorem scan_bytes : scan (head.bytes ++ rest) 0 = (head.lines.length, true) := by
  rw [bytes_append, head.passes_lines _ _ (by simp), Nat.zero_add]
  exact scan_emptyLine _ _

theorem take_lines : (head.bytes ++ rest).take head.lines.length = head.lines := by
  rw [bytes_append, List.take_left]

theorem eatLine_lines : eatLine head.lines = (head.start, fieldLines head.fields) :=
  eatLine_stops head.line (stops_fieldLines head.fields)

theorem length_le_fieldLines (fields : List Field) : fields.length ≤ (fieldLines fields).length := by
  induction fields with
  | nil => rfl
  | cons f fields ih =>
      simp only [fieldLines, List.flatMap_cons, List.length_append, List.length_cons] at ih ⊢
      omega

/-- The lines of the head, as the loop over them goes through them. -/
def decoded : Lines := decodeLines (fieldLines head.fields).length .empty (fieldLines head.fields)

/-- The call on a head comes to what the loop over its lines does. -/
theorem tryDecode_bytes (copyBody : Bool) :
    let d := cleared.tryDecode (head.bytes ++ rest) copyBody
    (d.outcome = .ok .error ↔ head.decoded.accepted = false) ∧
      (head.decoded.accepted = true →
        d.msg.headers = head.decoded.headers ∧ (d.line1 = head.start ∨ d.line1 = [])) := by
  simp only
  by_cases nowhere : head.lines.length = 0
  · -- The empty line stands at the very start, so there are no fields.
    have call := (tryDecode_missing (s := head.bytes ++ rest) (n := (head.bytes ++ rest).length)
      (by rw [List.take_length]; exact head.scan_bytes rest) (.inr nowhere) copyBody).1
    rw [List.take_length] at call
    have none : head.fields = [] := by
      have count := length_le_fieldLines head.fields
      rw [lines, List.length_append] at nowhere
      exact List.length_eq_zero_iff.mp (by omega)
    rw [call, decoded, none]
    exact ⟨iff_of_false (by simp) (by simp [fieldLines, decodeLines]), fun _ => ⟨rfl, .inr rfl⟩⟩
  · have headAt : HeadAt (head.bytes ++ rest) (head.bytes ++ rest).length head.lines.length :=
      ⟨by rw [List.take_length]; exact head.scan_bytes rest, Nat.pos_of_ne_zero nowhere⟩
    have accepts := accepts_headOf (head.bytes ++ rest) head.lines.length
    rw [take_lines, eatLine_lines] at accepts
    cases lines : head.decoded.accepted with
    | true =>
        have accepts := accepts.mpr lines
        obtain ⟨outcome, msg, line1⟩ := once_eq headAt accepts copyBody
        refine ⟨iff_of_false ?_ (by simp), fun _ => ⟨?_, .inl ?_⟩⟩
        · rw [outcome, decodeBody]
          split_ifs <;> simp
        · rw [msg, (decodeBody_headers _ _ _).1, headOf, readHead_accepts accepts, take_lines,
            eatLine_lines]
          rfl
        · have line := (buf_readHead { cleared with scanned := head.lines.length } head.lines []).1
          rw [line1, headOf, take_lines, line, eatLine_lines]
    | false =>
        have refused : ¬ (headOf (head.bytes ++ rest) head.lines.length).Accepts := by
          rw [accepts]
          exact fun accepted => Bool.false_ne_true (lines.symm.trans accepted)
        have outcome := headAt.tryDecode_error refused copyBody
        rw [List.take_length] at outcome
        exact ⟨iff_of_true outcome rfl, fun accepted => by cases accepted⟩

end HeadText

/-! ## Fields that are read -/

/-- The fields of a head are read: `tryDecode_` accepts their lines, so that an error can only be
one of the start line, and the headers are the names in lower case, each with the value of its last
field. -/
structure ReadsFields (fields : List Field) (startAccepted : Bool)
    (inner outcome : Except DecodeFault Result) (headers : StringMap) : Prop where
  accepted : inner ≠ .ok .error
  others : outcome = .ok .error → startAccepted = false
  headers : ∀ key, headers.find? key = Field.lastOf fields key

namespace HttpMsg

theorem lastOf_colon (fields : List Field) {key : Bytes} (colon : 58 ∈ key) :
    Field.lastOf fields key = none := by
  have apart : ∀ f ∈ fields.reverse, ¬ f.key = key := by
    rintro f - rfl
    exact f.colon_not_mem_key colon
  rw [Field.lastOf, List.find?_eq_none.mpr (by simpa using apart), Option.map_none]

/-- The lines of a head are accepted and stored exactly when its fields are spaced. -/
theorem decoded_iff (head : HeadText) :
    (head.decoded.accepted = true ∧
      ∀ key, head.decoded.headers.find? key = Field.lastOf head.fields key) ↔
      ∀ f ∈ head.fields, f.Spaced := by
  constructor
  · rintro ⟨accepted, headers⟩
    refine spaced_of_decodeLines accepted fun key colon => ?_
    exact (headers key).trans (lastOf_colon head.fields colon)
  · intro spaced
    obtain ⟨accepted, stored⟩ :=
      decodeLines_spaced spaced (HeadText.length_le_fieldLines head.fields) .empty
    refine ⟨accepted, fun key => ?_⟩
    rw [HeadText.decoded, stored, find?_storeFields]
    exact Option.or_none

theorem readsFields_iff (accepted : Bytes → Bool) (blank : accepted [] = true) (head : HeadText)
    (rest : Bytes) (copyBody : Bool) {headers : StringMap}
    (same : headers = (cleared.tryDecode (head.bytes ++ rest) copyBody).msg.headers) :
    ReadsFields head.fields (accepted head.start)
        (cleared.tryDecode (head.bytes ++ rest) copyBody).outcome
        (judged accepted (cleared.tryDecode (head.bytes ++ rest) copyBody)) headers ↔
      ∀ f ∈ head.fields, f.Spaced := by
  obtain ⟨refused, left⟩ := head.tryDecode_bytes rest copyBody
  rw [← decoded_iff]
  cases lines : head.decoded.accepted with
  | false => exact iff_of_false (fun reads => reads.accepted (refused.mpr lines)) (by simp)
  | true =>
      obtain ⟨stored, line1⟩ := left lines
      have quiet : (cleared.tryDecode (head.bytes ++ rest) copyBody).outcome ≠ .ok .error := by
        rw [ne_eq, refused, lines]
        simp
      have others : judged accepted (cleared.tryDecode (head.bytes ++ rest) copyBody) = .ok .error →
          accepted head.start = false := by
        intro error
        by_contra uri
        have passed : accepted (cleared.tryDecode (head.bytes ++ rest) copyBody).line1 = true := by
          rcases line1 with start | none
          · rw [start]
            exact Bool.eq_true_of_not_eq_false uri
          · rw [none, blank]
        cases returns : (cleared.tryDecode (head.bytes ++ rest) copyBody).outcome with
        | error fault =>
            rw [judged_error returns] at error
            cases error
        | ok r =>
            rw [judged_ok returns, if_pos passed, ← returns] at error
            exact quiet error
      rw [same, stored]
      exact ⟨fun reads => ⟨rfl, reads.headers⟩, fun ⟨_, headers⟩ => ⟨quiet, others, headers⟩⟩

/-- **The decoder reads the fields of a head exactly when they are spaced.** -/
theorem fields_read_iff (head : HeadText) (rest : Bytes) (copyBody : Bool) :
    let inner := (cleared.tryDecode (head.bytes ++ rest) copyBody).outcome
    (let d := HttpRequest.cleared.tryDecode (head.bytes ++ rest) copyBody
    ReadsFields head.fields (uriAccepted head.start) inner d.outcome d.msg.headers ↔
      ∀ f ∈ head.fields, f.Spaced) ∧
    ∀ behind,
      let d := HttpResponse.cleared.tryDecode (head.bytes ++ rest) behind copyBody
      ReadsFields head.fields true inner d.outcome d.msg.headers ↔ ∀ f ∈ head.fields, f.Spaced := by
  refine ⟨?_, fun behind => ?_⟩
  · obtain ⟨version, msg⟩ := HttpRequest.msg_once (head.bytes ++ rest) copyBody
    simp only
    rw [HttpRequest.outcome_once]
    exact readsFields_iff uriAccepted rfl head rest copyBody
      ((congrArg HttpMsg.headers msg).trans rfl)
  · obtain ⟨version, msg⟩ := HttpResponse.msg_once (head.bytes ++ rest) behind copyBody
    have reads := readsFields_iff (fun _ => true) rfl head rest copyBody
      ((congrArg HttpMsg.headers msg).trans rfl)
    rw [judged_true] at reads
    simp only
    rw [HttpResponse.outcome_once]
    exact reads

/-- A request with one field, written without white space. -/
def unspaced : HeadText where
  start := ascii "GET / HTTP/1.1"
  line := by decide +kernel
  fields := [⟨ascii "host", [], ascii "x", [], by decide +kernel, by decide +kernel,
    by decide +kernel, by decide +kernel⟩]

/-- It is rejected, although its start line is accepted. -/
theorem unspaced_is_rejected :
    unspaced.bytes = ascii "GET / HTTP/1.1\r\nhost:x\r\n\r\n" ∧
      uriAccepted unspaced.start = true ∧
      (HttpRequest.cleared.tryDecode unspaced.bytes true).outcome = .ok .error := by
  decide +kernel

end HttpMsg

end Handy
