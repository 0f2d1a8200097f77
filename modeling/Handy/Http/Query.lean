import Handy.Http

/-!
# The arguments of a request

The loops of `HttpRequest::tryDecode` over the query, with their five cursors: every
character is read through an index that has to be inside the text, every piece is cut out
between two cursors that have to stand in order, and a loop that does not end has no value.

They end and stay inside (`tryDecodeByCursors_eq`), and what they collect are the pieces
between ampersands, each split at its first equals sign, without those whose name is empty
(`query_parsed`).
-/

set_option autoImplicit false

namespace Handy

/-! ## The loops -/

/-- `while (c < qs.size() && !stop(qs[c])) c++`. -/
def scanTill (qs : Bytes) (stop : UInt8 → Bool) : ℕ → ℕ → Option ℕ
  | 0, _ => none
  | fuel + 1, c =>
      if c < qs.length then do
        let here ← qs[c]?
        if stop here then some c else scanTill qs stop fuel (c + 1)
      else some c

/-- `if (c < qs.size() && qs[c] == ch) c++`. -/
def skipOne (qs : Bytes) (ch : UInt8) (c : ℕ) : Option ℕ :=
  if c < qs.length then do
    let here ← qs[c]?
    if here = ch then some (c + 1) else some c
  else some c

/-- `string(qs.data() + first, qs.data() + last)`. -/
def between (qs : Bytes) (first last : ℕ) : Option Bytes :=
  if first ≤ last ∧ last ≤ qs.length then some ((qs.drop first).take (last - first)) else none

/-- `operator[]` of a `std::string`, which has a zero behind its last character. -/
def charAt (s : Bytes) (i : ℕ) : Option UInt8 := if i = s.length then some 0 else s[i]?

/-- `size_t c, kb, ke, vb, ve`. -/
structure QueryCursors where
  c : ℕ
  kb : ℕ
  ke : ℕ
  vb : ℕ
  ve : ℕ
  deriving DecidableEq, Repr

/-- The body of the loop over the query. -/
def scanPiece (qs : Bytes) (fuel : ℕ) (args : StringMap) (cursors : QueryCursors) :
    Option (StringMap × QueryCursors) := do
  let c ← scanTill qs (fun ch => ch == 61 || ch == 38) fuel cursors.c
  let ke := c
  let c ← skipOne qs 61 c
  let vb := c
  let c ← scanTill qs (· == 38) fuel c
  let ve := c
  let c ← skipOne qs 38 c
  if cursors.kb ≠ ke then do
    let key ← between qs cursors.kb ke
    let value ← between qs vb ve
    some (args.set key value, ⟨c, c, c, c, c⟩)
  else some (args, ⟨c, c, c, c, c⟩)

/-- `while (c < qs.size())`. -/
def scanArgs (qs : Bytes) (inner : ℕ) : ℕ → StringMap → QueryCursors → Option StringMap
  | 0, _, _ => none
  | fuel + 1, args, cursors =>
      if cursors.c < qs.length then do
        let (args, cursors) ← scanPiece qs inner args cursors
        scanArgs qs inner fuel args cursors
      else some args

namespace HttpRequest

/-- `for (size_t i = 0; i <= query_uri.size(); i++)`. -/
def scanUri (inner : ℕ) : ℕ → ℕ → HttpRequest → Option HttpRequest
  | 0, _, _ => none
  | fuel + 1, i, req =>
      if i ≤ req.queryUri.length then do
        let here ← charAt req.queryUri i
        if here = 63 then do
          let uri ← between req.queryUri 0 i
          let qs ← between req.queryUri (i + 1) req.queryUri.length
          let args ← scanArgs qs inner inner req.args ⟨0, 0, 0, 0, 0⟩
          some { req with uri := uri, args := args }
        else
          scanUri inner fuel (i + 1)
            (if i = req.queryUri.length then { req with uri := req.queryUri } else req)
      else some req

/-- `decodeLine` with the loops. -/
def decodeLineByCursors (fuel : ℕ) (req : HttpRequest) (line1 : Bytes) :
    Option (Bool × HttpRequest) :=
  let (method, ln1) := eatWord line1
  let (queryUri, ln1) := eatWord ln1
  let (version, _) := eatWord ln1
  let req := { req with method := method, queryUri := queryUri, version := version }
  if queryUri.length = 0 ∨ queryUri.head? ≠ some 47 then some (false, req)
  else (scanUri fuel fuel 0 req).map (true, ·)

/-- `HttpRequest::tryDecode` with the loops. -/
def tryDecodeByCursors (fuel : ℕ) (req : HttpRequest) (buf : Bytes) (copyBody : Bool) :
    Option (Decode HttpRequest) :=
  let d := req.toHttpMsg.tryDecode buf copyBody
  let req := { req with toHttpMsg := d.msg }
  match d.outcome with
  | .error fault => some ⟨.error fault, req, d.line1, d.buf⟩
  | .ok r =>
      if d.line1.length ≠ 0 then do
        let (accepted, req) ← decodeLineByCursors fuel req d.line1
        some ⟨.ok (if accepted then r else .error), req, d.line1, d.buf⟩
      else some ⟨.ok r, req, d.line1, d.buf⟩

end HttpRequest

/-! ## Cursors -/

/-- A cursor stands before the rest of a text. -/
structure Before (qs : Bytes) (c : ℕ) (rest : Bytes) : Prop where
  inside : c ≤ qs.length
  drop : qs.drop c = rest

namespace Before

variable {qs rest : Bytes} {c : ℕ}

theorem start (qs : Bytes) : Before qs 0 qs := ⟨Nat.zero_le _, rfl⟩

theorem length (before : Before qs c rest) : c + rest.length = qs.length := by
  rw [← before.drop, List.length_drop]
  have := before.inside
  omega

theorem lt_iff (before : Before qs c rest) : c < qs.length ↔ rest ≠ [] := by
  have := before.length
  rw [← List.length_pos_iff]
  omega

theorem getElem? (before : Before qs c rest) : qs[c]? = rest.head? := by
  rw [← before.drop, List.head?_drop]

theorem step {first : UInt8} (before : Before qs c (first :: rest)) : Before qs (c + 1) rest := by
  have := before.length
  rw [List.length_cons] at this
  refine ⟨by omega, ?_⟩
  rw [← List.drop_drop, before.drop]
  rfl

theorem advance {front : Bytes} (before : Before qs c (front ++ rest)) :
    Before qs (c + front.length) rest := by
  have := before.length
  rw [List.length_append] at this
  refine ⟨by omega, ?_⟩
  rw [← List.drop_drop, before.drop, List.drop_left' rfl]

theorem between {front : Bytes} (before : Before qs c (front ++ rest)) :
    between qs c (c + front.length) = some front := by
  have := before.length
  rw [List.length_append] at this
  rw [Handy.between, if_pos (by omega), before.drop, Nat.add_sub_cancel_left, List.take_left' rfl]

/-- A scan stops before the first character that stops it. -/
theorem scanTill (stop : UInt8 → Bool) {fuel : ℕ} (before : Before qs c rest)
    (enough : rest.length < fuel) :
    scanTill qs stop fuel c = some (c + (rest.takeWhile (!stop ·)).length) := by
  induction rest generalizing c fuel with
  | nil =>
      obtain ⟨fuel, rfl⟩ := Nat.exists_eq_succ_of_ne_zero (Nat.ne_of_gt enough)
      rw [Handy.scanTill, if_neg fun inside => before.lt_iff.mp inside rfl]
      rfl
  | cons first rest ih =>
      obtain ⟨fuel, rfl⟩ := Nat.exists_eq_succ_of_ne_zero (Nat.ne_of_gt (Nat.zero_lt_of_lt enough))
      rw [Handy.scanTill, if_pos (before.lt_iff.mpr (List.cons_ne_nil _ _)), before.getElem?]
      show (if stop first then some c else Handy.scanTill qs stop fuel (c + 1)) = _
      by_cases stops : stop first = true
      · rw [if_pos stops, List.takeWhile_cons_of_neg (by simp [stops])]
        rfl
      · rw [if_neg stops, ih before.step (Nat.lt_of_succ_lt_succ enough),
          List.takeWhile_cons_of_pos (by simpa using stops), List.length_cons, Nat.add_right_comm,
          Nat.add_assoc]

theorem after_scanTill (stop : UInt8 → Bool) (before : Before qs c rest) :
    Before qs (c + (rest.takeWhile (!stop ·)).length) (rest.dropWhile (!stop ·)) := by
  rw [← List.takeWhile_append_dropWhile (p := (!stop ·)) (l := rest)] at before
  exact before.advance

theorem skipOne (ch : UInt8) (before : Before qs c rest) :
    ∃ c', skipOne qs ch c = some c' ∧
      Before qs c' (if rest.head? = some ch then rest.tail else rest) := by
  unfold Handy.skipOne
  cases rest with
  | nil =>
      rw [if_neg fun inside => before.lt_iff.mp inside rfl]
      exact ⟨c, rfl, before⟩
  | cons first rest =>
      rw [if_pos (before.lt_iff.mpr (List.cons_ne_nil _ _)), before.getElem?]
      by_cases same : first = ch
      · subst same
        exact ⟨c + 1, by simp, by simpa using before.step⟩
      · exact ⟨c, by simp [same], by simpa [same] using before⟩

end Before

/-! ## The loops end, inside the text -/

/-- The name, the value and the rest that one turn of the loop over the query takes. -/
def nextPiece (qs : Bytes) : Bytes × Bytes × Bytes :=
  let named := qs.dropWhile fun c => c ≠ 61 ∧ c ≠ 38
  let valued := if named.head? = some 61 then named.tail else named
  (qs.takeWhile fun c => c ≠ 61 ∧ c ≠ 38, valued.takeWhile fun c => c ≠ 38,
    (valued.dropWhile fun c => c ≠ 38).tail)

/-- An argument is stored unless its name is empty. -/
def storeArg (args : StringMap) (key value : Bytes) : StringMap :=
  if key ≠ [] then args.set key value else args

theorem parseArgs_nil (fuel : ℕ) (args : StringMap) : HttpRequest.parseArgs fuel args [] = args := by
  cases fuel <;> rfl

theorem parseArgs_succ (fuel : ℕ) (args : StringMap) {qs : Bytes} (more : qs ≠ []) :
    HttpRequest.parseArgs (fuel + 1) args qs =
      HttpRequest.parseArgs fuel (storeArg args (nextPiece qs).1 (nextPiece qs).2.1)
        (nextPiece qs).2.2 := by
  cases qs with
  | nil => exact absurd rfl more
  | cons first rest => rfl

theorem nextPiece_shorter {qs : Bytes} (more : qs ≠ []) : (nextPiece qs).2.2.length < qs.length := by
  have named := (List.dropWhile_suffix (l := qs) fun c => c ≠ 61 ∧ c ≠ 38).length_le
  have positive := List.length_pos_iff.mpr more
  simp only [nextPiece, List.length_tail]
  have valued := fun l : Bytes => (List.dropWhile_suffix (l := l) fun c => c ≠ 38).length_le
  split_ifs with equals
  · have := valued (qs.dropWhile fun c => c ≠ 61 ∧ c ≠ 38).tail
    rw [List.length_tail] at this
    omega
  · have := valued (qs.dropWhile fun c => c ≠ 61 ∧ c ≠ 38)
    omega

/-- What is left after a scan to an ampersand begins with it, if there is anything. -/
theorem tail_dropWhile_amp (qs : Bytes) :
    (if (qs.dropWhile fun c => c ≠ 38).head? = some 38 then (qs.dropWhile fun c => c ≠ 38).tail
      else qs.dropWhile fun c => c ≠ 38) = (qs.dropWhile fun c => c ≠ 38).tail := by
  cases rest : qs.dropWhile fun c => c ≠ 38 with
  | nil => rfl
  | cons first rest' =>
      have stops := List.head?_dropWhile_not (fun c => decide (c ≠ 38)) qs
      rw [rest] at stops
      have amp : first = 38 := by simpa using stops
      subst amp
      rfl

namespace Before

variable {qs rest : Bytes} {c : ℕ}

/-- One turn of the loop takes the next piece. -/
theorem scanPiece {fuel : ℕ} (before : Before qs c rest) (enough : rest.length < fuel)
    (args : StringMap) (ke vb ve : ℕ) :
    ∃ c', scanPiece qs fuel args ⟨c, c, ke, vb, ve⟩ =
        some (storeArg args (nextPiece rest).1 (nextPiece rest).2.1, ⟨c', c', c', c', c'⟩) ∧
      Before qs c' (nextPiece rest).2.2 := by
  have stops : (fun ch : UInt8 => !(ch == 61 || ch == 38)) = fun c => decide (c ≠ 61 ∧ c ≠ 38) := by
    funext ch
    rw [Bool.eq_iff_iff]
    simp
  have ends : (fun ch : UInt8 => !(ch == 38)) = fun c => decide (c ≠ 38) := by
    funext ch
    rw [Bool.eq_iff_iff]
    simp
  have key_end := before.scanTill (fun ch => ch == 61 || ch == 38) enough
  have named := before.after_scanTill fun ch => ch == 61 || ch == 38
  have key := before
  rw [← List.takeWhile_append_dropWhile (p := fun ch => !(ch == 61 || ch == 38)) (l := rest)] at key
  have cut := key.between
  rw [stops] at key_end named cut
  obtain ⟨vb', skipped, valued⟩ := named.skipOne 61
  have short : (if (rest.dropWhile fun c => c ≠ 61 ∧ c ≠ 38).head? = some 61
      then (rest.dropWhile fun c => c ≠ 61 ∧ c ≠ 38).tail
      else rest.dropWhile fun c => c ≠ 61 ∧ c ≠ 38).length < fuel := by
    have := (List.dropWhile_suffix (l := rest) fun c => c ≠ 61 ∧ c ≠ 38).length_le
    split_ifs
    · rw [List.length_tail]
      omega
    · omega
  have value_end := valued.scanTill (· == 38) short
  have after := valued.after_scanTill (· == 38)
  have value := valued
  rw [← List.takeWhile_append_dropWhile (p := fun ch => !(ch == 38)) (l := ite _ _ _)] at value
  have cut' := value.between
  rw [ends] at value_end after cut'
  obtain ⟨c', passed, left⟩ := after.skipOne 38
  rw [tail_dropWhile_amp] at left
  refine ⟨c', ?_, left⟩
  unfold Handy.scanPiece
  simp only [key_end, skipped, value_end, passed, cut, cut', Option.bind_eq_bind, Option.bind_some]
  -- The cursors of the name differ exactly if the name is not empty.
  by_cases none : rest.takeWhile (fun c => c ≠ 61 ∧ c ≠ 38) = []
  · have equal : ¬ c ≠ c + (rest.takeWhile fun c => c ≠ 61 ∧ c ≠ 38).length := by
      rw [none]
      exact not_not_intro rfl
    rw [if_neg equal, storeArg, nextPiece, if_neg (not_not_intro none)]
  · have differ : c ≠ c + (rest.takeWhile fun c => c ≠ 61 ∧ c ≠ 38).length := by
      have := List.length_pos_iff.mpr none
      omega
    rw [if_pos differ, storeArg, nextPiece, if_pos none]

/-- The loop over the query ends, and collects what `parseArgs` does. -/
theorem scanArgs {inner fuel n : ℕ} {args : StringMap} (before : Before qs c rest)
    (enough : rest.length < fuel) (inside : rest.length < inner) (pieces : rest.length ≤ n) :
    scanArgs qs inner fuel args ⟨c, c, c, c, c⟩ = some (HttpRequest.parseArgs n args rest) := by
  induction fuel generalizing c rest args n with
  | zero => exact absurd enough (Nat.not_lt_zero _)
  | succ fuel ih =>
      rw [Handy.scanArgs]
      by_cases more : rest = []
      · rw [if_neg fun left => before.lt_iff.mp left more, more, parseArgs_nil]
      · have positive := List.length_pos_iff.mpr more
        obtain ⟨n, rfl⟩ := Nat.exists_eq_succ_of_ne_zero (n := n) (by omega)
        obtain ⟨c', piece, after⟩ := before.scanPiece inside args c c c
        have shorter := nextPiece_shorter more
        rw [if_pos (before.lt_iff.mpr more), piece, parseArgs_succ n args more]
        exact ih after (by omega) (by omega) (by omega)

end Before

namespace HttpRequest

/-- The loop over the query, from the beginning. -/
theorem scanArgs_eq {fuel : ℕ} (args : StringMap) {qs : Bytes} (enough : qs.length < fuel) :
    scanArgs qs fuel fuel args ⟨0, 0, 0, 0, 0⟩ = some (parseArgs qs.length args qs) :=
  (Before.start qs).scanArgs enough enough le_rfl

theorem charAt_before {s rest : Bytes} {i : ℕ} (before : Before s i rest) :
    charAt s i = some (rest.head?.getD 0) := by
  unfold charAt
  have length := before.length
  cases rest with
  | nil => rw [if_pos (by simpa using length)]; rfl
  | cons first rest =>
      rw [List.length_cons] at length
      rw [if_neg (by omega), before.getElem?]
      rfl

/-- The loop that looks for a question mark ends, and splits the URI. -/
theorem scanUri_before {inner fuel i : ℕ} {req : HttpRequest} {front rest : Bytes}
    (whole : req.queryUri = front ++ rest) (here : i = front.length)
    (plain : ∀ c ∈ front, c ≠ 63) (enough : rest.length + 1 < fuel)
    (inside : rest.length < inner) : scanUri inner fuel i req = some req.splitUri := by
  induction fuel generalizing i front rest with
  | zero => exact absurd enough (Nat.not_lt_zero _)
  | succ fuel ih =>
      have before : Before req.queryUri i rest := by
        rw [here, whole]
        exact ⟨by simp, List.drop_left' rfl⟩
      rw [scanUri, if_pos before.inside, charAt_before before]
      cases rest with
      | nil =>
          rw [List.append_nil] at whole
          have last : i = req.queryUri.length := by rw [here, whole]
          have zero : ¬ (0 : UInt8) = 63 := by decide
          obtain ⟨fuel, rfl⟩ := Nat.exists_eq_succ_of_ne_zero (n := fuel) (by omega)
          have split : req.splitUri = { req with uri := req.queryUri } := by
            rw [splitUri, whole, List.dropWhile_eq_nil_iff.mpr (by simpa using plain)]
          have past : ¬ i + 1 ≤ req.queryUri.length := by omega
          simp only [List.head?_nil, Option.getD_none, Option.bind_eq_bind, Option.bind_some,
            if_neg zero, if_pos last, scanUri, if_neg past, split]
      | cons first rest =>
          rw [List.length_cons] at enough inside
          by_cases question : first = 63
          · subst question
            have passed : ∀ c ∈ front, decide (c ≠ 63) = true := by simpa using plain
            have path := (Before.start req.queryUri)
            rw [whole] at path
            have uri := path.between
            rw [← whole, Nat.zero_add, ← here] at uri
            have query := before.step
            rw [← List.append_nil rest] at query
            have qs := query.between
            rw [before.step.length] at qs
            have inside' : rest.length < inner := by omega
            have split : req.splitUri =
                { req with uri := front, args := parseArgs rest.length req.args rest } := by
              rw [splitUri, whole, List.takeWhile_append_of_pos passed,
                List.dropWhile_append_of_pos passed]
              simp
            simp only [List.head?_cons, Option.getD_some, Option.bind_eq_bind, Option.bind_some,
              if_true, uri, qs, scanArgs_eq req.args inside', split]
          · have onward : ¬ i = req.queryUri.length := by
              have := before.length
              rw [List.length_cons] at this
              omega
            simp only [List.head?_cons, Option.getD_some, Option.bind_eq_bind, Option.bind_some,
              if_neg question, if_neg onward]
            have whole' : req.queryUri = (front ++ [first]) ++ rest := by rw [whole]; simp
            refine ih whole' (by simp [here]) ?_ (by omega) (by omega)
            intro c member
            rcases List.mem_append.mp member with earlier | last
            · exact plain c earlier
            · rw [List.mem_singleton.mp last]
              exact question

/-- **The loops over the URI end, inside the text**, and do what `splitUri` says. -/
theorem scanUri_eq {fuel : ℕ} {req : HttpRequest} (enough : req.queryUri.length + 1 < fuel) :
    scanUri fuel fuel 0 req = some req.splitUri :=
  scanUri_before (show req.queryUri = [] ++ req.queryUri from rfl) rfl
    (fun _ member => absurd member List.not_mem_nil) enough (by omega)

theorem splitUri_queryUri (req : HttpRequest) : req.splitUri.queryUri = req.queryUri := by
  unfold splitUri
  split <;> rfl

theorem decodeLineByCursors_eq {fuel : ℕ} {req : HttpRequest} {line1 : Bytes}
    (enough : (req.decodeLine line1).2.queryUri.length + 1 < fuel) :
    decodeLineByCursors fuel req line1 = some (req.decodeLine line1) := by
  unfold decodeLine at enough ⊢
  unfold decodeLineByCursors
  simp only at enough ⊢
  split_ifs at enough ⊢ with refused
  · rfl
  · rw [splitUri_queryUri] at enough
    rw [scanUri_eq enough]
    rfl

/-- **The loops of `tryDecode` end, and stay inside the text.** -/
theorem tryDecodeByCursors_eq {fuel : ℕ} {req : HttpRequest} {buf : Bytes} {copyBody : Bool}
    (enough : (req.tryDecode buf copyBody).msg.queryUri.length + 1 < fuel) :
    tryDecodeByCursors fuel req buf copyBody = some (req.tryDecode buf copyBody) := by
  unfold tryDecode at enough ⊢
  unfold tryDecodeByCursors
  cases result : (req.toHttpMsg.tryDecode buf copyBody).outcome with
  | error fault => simp only [result]
  | ok r =>
      by_cases line : (req.toHttpMsg.tryDecode buf copyBody).line1.length ≠ 0
      · simp only [result, if_pos line] at enough ⊢
        rw [decodeLineByCursors_eq enough]
        rfl
      · simp only [result, if_neg line]

/-! ## What the loops collect -/

/-- A piece of the query is split at its first equals sign. -/
def splitPair (piece : Bytes) : Bytes × Bytes :=
  (piece.takeWhile (· ≠ 61), (piece.dropWhile (· ≠ 61)).tail)

/-- The arguments of a query: its pieces between ampersands, split, without those whose name
is empty; a later one replaces an earlier one of its name. -/
def queryArgs (qs : Bytes) : StringMap :=
  (((qs.splitOn 38).map splitPair).filter (·.1 ≠ [])).foldl
    (fun args pair => args.set pair.1 pair.2) .empty

theorem takeWhile_key {piece rest : Bytes} (plain : ∀ c ∈ piece, c ≠ 38)
    (ends : rest.head?.all (· == 38) = true) :
    (piece ++ rest).takeWhile (fun c => c ≠ 61 ∧ c ≠ 38) = piece.takeWhile (· ≠ 61) ∧
      (piece ++ rest).dropWhile (fun c => c ≠ 61 ∧ c ≠ 38) = piece.dropWhile (· ≠ 61) ++ rest := by
  induction piece with
  | nil =>
      cases rest with
      | nil => exact ⟨rfl, rfl⟩
      | cons first rest =>
          have amp : first = 38 := by simpa using ends
          subst amp
          exact ⟨rfl, rfl⟩
  | cons first piece ih =>
      have other : first ≠ 38 := plain first List.mem_cons_self
      by_cases equals : first = 61
      · subst equals
        exact ⟨rfl, rfl⟩
      · obtain ⟨key, left⟩ := ih fun c member => plain c (List.mem_cons_of_mem _ member)
        constructor
        · rw [List.cons_append, List.takeWhile_cons_of_pos (by simp [equals, other]), key,
            List.takeWhile_cons_of_pos (by simp [equals])]
        · rw [List.cons_append, List.dropWhile_cons_of_pos (by simp [equals, other]), left,
            List.dropWhile_cons_of_pos (by simp [equals])]

/-- The next piece is the text before the first ampersand, split. -/
theorem nextPiece_append {piece rest : Bytes} (plain : ∀ c ∈ piece, c ≠ 38)
    (ends : rest.head?.all (· == 38) = true) :
    nextPiece (piece ++ rest) = ((splitPair piece).1, (splitPair piece).2, rest.tail) := by
  obtain ⟨key, left⟩ := takeWhile_key plain ends
  have passed : ∀ c ∈ (piece.dropWhile (· ≠ 61)).tail, decide (c ≠ 38) = true := by
    intro c member
    exact decide_eq_true (plain c ((List.dropWhile_suffix _).subset (List.mem_of_mem_tail member)))
  have stops : rest.takeWhile (fun c => c ≠ 38) = [] ∧ rest.dropWhile (fun c => c ≠ 38) = rest := by
    cases rest with
    | nil => exact ⟨rfl, rfl⟩
    | cons first rest =>
        have amp : first = 38 := by simpa using ends
        subst amp
        exact ⟨rfl, rfl⟩
  have valued : (if (piece.dropWhile (· ≠ 61) ++ rest).head? = some 61
      then (piece.dropWhile (· ≠ 61) ++ rest).tail else piece.dropWhile (· ≠ 61) ++ rest) =
        (piece.dropWhile (· ≠ 61)).tail ++ rest := by
    cases value : piece.dropWhile (· ≠ 61) with
    | nil =>
        have other : ¬ rest.head? = some 61 := by
          intro equals
          rw [equals] at ends
          exact absurd ends (by decide)
        simp [other]
    | cons first value' =>
        have equals := List.head?_dropWhile_not (fun c => decide (c ≠ 61)) piece
        rw [value] at equals
        have first_eq : first = 61 := by simpa using equals
        simp [first_eq]
  unfold nextPiece splitPair
  simp only [key, left, valued]
  rw [List.takeWhile_append_of_pos passed, List.dropWhile_append_of_pos passed, stops.1, stops.2,
    List.append_nil]

theorem storeArg_foldl (args : StringMap) (pair : Bytes × Bytes) (pairs : List (Bytes × Bytes)) :
    ((pair :: pairs).filter (·.1 ≠ [])).foldl (fun args pair => args.set pair.1 pair.2) args =
      (pairs.filter (·.1 ≠ [])).foldl (fun args pair => args.set pair.1 pair.2)
        (storeArg args pair.1 pair.2) := by
  unfold storeArg
  by_cases named : pair.1 ≠ []
  · rw [List.filter_cons_of_pos (by simpa using named), List.foldl_cons, if_pos named]
  · rw [List.filter_cons_of_neg (by simpa using named), if_neg named]

/-- The pieces of a query that begins with a piece. -/
theorem splitOn_append {piece rest : Bytes} (plain : ∀ c ∈ piece, c ≠ 38)
    (ends : rest.head?.all (· == 38) = true) (more : rest ≠ []) :
    (piece ++ rest).splitOn 38 = piece :: rest.tail.splitOn 38 := by
  cases rest with
  | nil => exact absurd rfl more
  | cons first rest =>
      have amp : first = 38 := by simpa using ends
      subst amp
      exact List.splitOnP_append_cons_of_forall_mem
        (fun c member => beq_eq_false_iff_ne.mpr (plain c member)) 38 (beq_self_eq_true 38) rest

/-- **`parseArgs` stores the pieces one after the other.** -/
theorem parseArgs_eq {n : ℕ} {qs : Bytes} (enough : qs.length ≤ n) (args : StringMap) :
    parseArgs n args qs = (((qs.splitOn 38).map splitPair).filter (·.1 ≠ [])).foldl
      (fun args pair => args.set pair.1 pair.2) args := by
  induction n generalizing qs args with
  | zero =>
      rw [List.length_eq_zero_iff.mp (Nat.le_zero.mp enough)]
      rfl
  | succ n ih =>
      by_cases none : qs = []
      · rw [none]
        rfl
      · have shorter := nextPiece_shorter none
        rw [parseArgs_succ n args none, ih (by omega)]
        have plain : ∀ c ∈ qs.takeWhile (fun c => c ≠ 38), c ≠ 38 := fun c member => by
          simpa using List.mem_takeWhile_imp member
        have ends : (qs.dropWhile fun c => c ≠ 38).head?.all (· == 38) = true := by
          have stops := List.head?_dropWhile_not (fun c => decide (c ≠ 38)) qs
          cases left : qs.dropWhile fun c => c ≠ 38 with
          | nil => rfl
          | cons first rest =>
              rw [left] at stops
              simpa using stops
        have next := nextPiece_append plain ends
        rw [List.takeWhile_append_dropWhile] at next
        rw [next]
        by_cases last : qs.dropWhile (fun c => c ≠ 38) = []
        · have whole : qs.takeWhile (fun c => c ≠ 38) = qs := by
            have := List.takeWhile_append_dropWhile (p := fun c => decide (c ≠ 38)) (l := qs)
            rwa [last, List.append_nil] at this
          have single : qs.splitOn 38 = [qs] := List.splitOn_eq_singleton fun member =>
            plain 38 (by rwa [whole]) rfl
          rw [last, whole, single, List.map_singleton, storeArg_foldl]
          rfl
        · have pieces := splitOn_append plain ends last
          rw [List.takeWhile_append_dropWhile] at pieces
          rw [pieces, List.map_cons, storeArg_foldl]

theorem splitUri_eq (req : HttpRequest) (fresh : req.args = .empty) :
    req.splitUri.uri = req.queryUri.takeWhile (· ≠ 63) ∧
      req.splitUri.args = queryArgs (req.queryUri.dropWhile (· ≠ 63)).tail := by
  unfold splitUri
  cases query : req.queryUri.dropWhile fun c => c ≠ 63 with
  | nil =>
      refine ⟨?_, fresh⟩
      have whole := List.takeWhile_append_dropWhile (p := fun c => decide (c ≠ 63)) (l := req.queryUri)
      rw [query, List.append_nil] at whole
      exact whole.symm
  | cons question qs =>
      refine ⟨rfl, ?_⟩
      show parseArgs qs.length req.args qs = _
      rw [fresh]
      exact parseArgs_eq le_rfl .empty

/-- An accepted start line has been split. -/
theorem decodeLine_accepted {req : HttpRequest} {line1 : Bytes}
    (accepted : (req.decodeLine line1).2.queryUri.head? = some 47) :
    ∃ before : HttpRequest, before.args = req.args ∧ (req.decodeLine line1).2 = before.splitUri := by
  unfold decodeLine at accepted ⊢
  simp only at accepted ⊢
  split_ifs at accepted ⊢ with refused
  · rcases refused with empty | other
    · rw [List.length_eq_zero_iff.mp empty] at accepted
      cases accepted
    · exact absurd accepted other
  · refine ⟨{ req with
      method := (eatWord line1).1
      queryUri := (eatWord (eatWord line1).2).1
      version := (eatWord (eatWord (eatWord line1).2).2).1 }, rfl, rfl⟩

/-- **The query is parsed**: if the start line of a message is accepted by a request that was
cleared, then the URI is what stands before the first question mark, and the arguments are
those of the rest; and the loops that find them end without a read outside of the text. -/
theorem query_parsed (buf : Bytes) (copyBody : Bool)
    (accepted : (cleared.tryDecode buf copyBody).msg.queryUri.head? = some 47) :
    (cleared.tryDecode buf copyBody).msg.uri =
        (cleared.tryDecode buf copyBody).msg.queryUri.takeWhile (· ≠ 63) ∧
      (cleared.tryDecode buf copyBody).msg.args =
        queryArgs ((cleared.tryDecode buf copyBody).msg.queryUri.dropWhile (· ≠ 63)).tail ∧
      ∀ fuel, (cleared.tryDecode buf copyBody).msg.queryUri.length + 1 < fuel →
        tryDecodeByCursors fuel cleared buf copyBody = some (cleared.tryDecode buf copyBody) := by
  suffices split : ∃ before : HttpRequest, before.args = .empty ∧
      (cleared.tryDecode buf copyBody).msg = before.splitUri by
    obtain ⟨before, fresh, same⟩ := split
    obtain ⟨uri, args⟩ := splitUri_eq before fresh
    rw [same, splitUri_queryUri]
    refine ⟨uri, args, fun fuel enough => tryDecodeByCursors_eq ?_⟩
    rwa [same, splitUri_queryUri]
  unfold tryDecode at accepted ⊢
  cases result : (cleared.toHttpMsg.tryDecode buf copyBody).outcome with
  | error fault =>
      simp only [result] at accepted
      cases accepted
  | ok r =>
      by_cases line : (cleared.toHttpMsg.tryDecode buf copyBody).line1.length ≠ 0
      · simp only [result, if_pos line] at accepted ⊢
        exact decodeLine_accepted accepted
      · simp only [result, if_neg line] at accepted
        cases accepted

/-- A query of three pieces: the second has no name, and the third overrides the first. -/
theorem query_parsed_pieces :
    (cleared.tryDecode (ascii "GET /p?a=1&=2&a HTTP/1.1\r\n\r\n") false).msg.uri = ascii "/p" ∧
      (cleared.tryDecode (ascii "GET /p?a=1&=2&a HTTP/1.1\r\n\r\n") false).msg.args.find?
        (ascii "a") = some [] := by
  obtain ⟨uri, args, -⟩ :=
    query_parsed (ascii "GET /p?a=1&=2&a HTTP/1.1\r\n\r\n") false (by decide +kernel)
  rw [uri, args]
  decide +kernel

end HttpRequest

end Handy
