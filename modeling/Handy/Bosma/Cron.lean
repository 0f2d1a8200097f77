import Handy.Http.Text
import Handy.Lib.Calendar

/-!
# Cron expressions

`Bosma::Cron` reads an expression of five fields, a minute, an hour, a day, a month and a day of
the week, each a number or a star. `cron_to_next` looks for the next minute at which a clock shows
these fields: it goes to the next month, day, hour or minute while the fields of the clock differ
from those of the expression, and jumps over everything that cannot fit.

A field that is a star is `-1`, and months are counted from 0. The clock is that of a time zone in
which the difference to UTC does not change. The loop of `cron_to_next` need not end, so that it
is given a number of iterations; all of it that depends on the order of the tests is kept.

The expressions that are accepted are those of the crons whose fields are stars or in their ranges
(`expression_accepted_iff`).
-/

set_option autoImplicit false

namespace Handy.Bosma

open Calendar

/-! ## Expressions -/

/-- What `std::stoi` throws. -/
inductive StoiError where
  | invalidArgument
  | outOfRange
  deriving DecidableEq, Repr

/-- `std::stoi`. -/
def stoi (s : Bytes) : Except StoiError ℤ :=
  if (skipSign (s.dropWhile isSpace)).head?.any isDigit = false then .error .invalidArgument
  else if strtol s < -(2 ^ 31) ∨ 2 ^ 31 ≤ strtol s then .error .outOfRange
  else .ok (strtol s)

/-- The words that an `istream_iterator<std::string>` reads. -/
def words (s : Bytes) : List Bytes := (s.splitOnP isSpace).filter (· ≠ [])

/-- `verify_and_set`: the value of the field, or the message of the exception. -/
def verify_and_set (token expression : Bytes) (lower_bound upper_bound : ℤ) (adjust : Bool) :
    Except Bytes ℤ :=
  if token = ascii "*" then .ok (-1)
  else
    match stoi token with
    | .error .invalidArgument => .error (ascii "malformed cron string (`" ++ token ++
        ascii "` not an integer or *): " ++ expression)
    | .error .outOfRange => .error (ascii "malformed cron string (`" ++ token ++
        ascii "` not convertable to int): " ++ expression)
    | .ok field =>
        if field < lower_bound ∨ upper_bound < field then
          .error (ascii "malformed cron string ('" ++ token ++ ascii "' must be <= " ++
            decimalInt upper_bound ++ ascii " and >= " ++ decimalInt lower_bound ++
            ascii "): " ++ expression)
        else .ok (if adjust then field - 1 else field)

/-- `Cron`. -/
structure Cron where
  minute : ℤ
  hour : ℤ
  day : ℤ
  month : ℤ
  day_of_week : ℤ
  deriving DecidableEq, Repr

/-- The constructor of `Cron`. -/
def Cron.ofExpression (expression : Bytes) : Except Bytes Cron :=
  match words expression with
  | [first, second, third, fourth, fifth] => do
      let minute ← verify_and_set first expression 0 59 false
      let hour ← verify_and_set second expression 0 23 false
      let day ← verify_and_set third expression 1 31 false
      let month ← verify_and_set fourth expression 1 12 true
      let day_of_week ← verify_and_set fifth expression 0 6 false
      return ⟨minute, hour, day, month, day_of_week⟩
  | _ => .error (ascii "malformed cron string (must be 5 fields): " ++ expression)

/-! ## The next run -/

/-- `std::localtime` in a zone that is so many seconds ahead of UTC. -/
def localtime (zone time : ℤ) : Tm := brokenDown (time + zone)

/-- `std::mktime`. -/
def mktime (zone : ℤ) (tm : Tm) : ℤ := seconds tm - zone

/-- `add`. -/
def add (zone : ℤ) (tm : Tm) (time : ℤ) : Tm := localtime zone (mktime zone tm + time)

namespace Cron

/-- One pass through the loop of `cron_to_next`, which `break`s or `continue`s. -/
def advance (cron : Cron) (zone : ℤ) (next : Tm) : Option Tm :=
  if cron.month ≠ -1 ∧ next.tm_mon ≠ cron.month then
    if next.tm_mon + 1 > 11 then
      some { next with
        tm_mon := 0, tm_year := next.tm_year + 1, tm_mday := 1, tm_hour := 0, tm_min := 0 }
    else
      some { next with tm_mon := next.tm_mon + 1, tm_mday := 1, tm_hour := 0, tm_min := 0 }
  else if cron.day ≠ -1 ∧ next.tm_mday ≠ cron.day then
    some { add zone next (24 * 3600) with tm_hour := 0, tm_min := 0 }
  else if cron.day_of_week ≠ -1 ∧ next.tm_wday ≠ cron.day_of_week then
    some { add zone next (24 * 3600) with tm_hour := 0, tm_min := 0 }
  else if cron.hour ≠ -1 ∧ next.tm_hour ≠ cron.hour then
    some { add zone next 3600 with tm_min := 0 }
  else if cron.minute ≠ -1 ∧ next.tm_min ≠ cron.minute then
    some (add zone next 60)
  else none

/-- The loop of `cron_to_next`, for at most `fuel` passes. -/
def search (cron : Cron) (zone : ℤ) : ℕ → Tm → Option Tm
  | 0, _ => none
  | fuel + 1, next =>
      match cron.advance zone next with
      | none => some next
      | some later => search cron zone fuel later

/-- `Cron::cron_to_next`, when the loop ends within `fuel` passes. -/
def cron_to_next (cron : Cron) (zone : ℤ) (fuel : ℕ) (start : ℤ) : Option ℤ :=
  (cron.search zone fuel (add zone { localtime zone start with tm_sec := 0 } 60)).map (mktime zone)

end Cron

/-! ## The expressions that are accepted -/

/-- A field is a star or in its range. -/
def FieldIn (lower upper value : ℤ) : Prop := value = -1 ∨ lower ≤ value ∧ value ≤ upper

/-- The fields are stars or in their ranges. -/
structure Cron.Valid (cron : Cron) : Prop where
  minute : FieldIn 0 59 cron.minute
  hour : FieldIn 0 23 cron.hour
  day : FieldIn 1 31 cron.day
  month : FieldIn 0 11 cron.month
  day_of_week : FieldIn 0 6 cron.day_of_week

/-- What is taken off a field that is counted from 1 and kept as one that is counted from 0. -/
def adjustment (adjust : Bool) : ℤ := if adjust then 1 else 0

theorem fieldIn_of_verify {token expression : Bytes} {lower upper value : ℤ} {adjust : Bool}
    (accepted : verify_and_set token expression lower upper adjust = .ok value) :
    FieldIn (lower - adjustment adjust) (upper - adjustment adjust) value := by
  unfold verify_and_set at accepted
  by_cases star : token = ascii "*"
  · rw [if_pos star] at accepted
    cases accepted
    exact .inl rfl
  · rw [if_neg star] at accepted
    split at accepted
    · cases accepted
    · cases accepted
    · split at accepted
      · cases accepted
      · cases accepted
        cases adjust <;> simp only [adjustment, if_true, Bool.false_eq_true, if_false] <;>
          exact .inr (by omega)

theorem ok_of_bind {α β : Type} {first : Except Bytes α} {second : α → Except Bytes β} {value : β}
    (ok : first >>= second = .ok value) : ∃ middle, first = .ok middle ∧ second middle = .ok value := by
  cases first with
  | error message => cases ok
  | ok middle => exact ⟨middle, rfl, ok⟩

/-- **What is accepted is valid.** -/
theorem Cron.valid_of_ofExpression {expression : Bytes} {cron : Cron}
    (accepted : Cron.ofExpression expression = .ok cron) : cron.Valid := by
  unfold Cron.ofExpression at accepted
  split at accepted
  · obtain ⟨_, minute, accepted⟩ := ok_of_bind accepted
    obtain ⟨_, hour, accepted⟩ := ok_of_bind accepted
    obtain ⟨_, day, accepted⟩ := ok_of_bind accepted
    obtain ⟨_, month, accepted⟩ := ok_of_bind accepted
    obtain ⟨_, day_of_week, accepted⟩ := ok_of_bind accepted
    cases accepted
    exact ⟨fieldIn_of_verify minute, fieldIn_of_verify hour, fieldIn_of_verify day,
      fieldIn_of_verify month, fieldIn_of_verify day_of_week⟩
  · cases accepted

/-- A field as it is written. -/
def writeField (adjust : Bool) (value : ℤ) : Bytes :=
  if value = -1 then ascii "*" else decimalInt (value + adjustment adjust)

/-- The expression of a cron. -/
def Cron.write (cron : Cron) : Bytes :=
  writeField false cron.minute ++ ascii " " ++ writeField false cron.hour ++ ascii " " ++
    writeField false cron.day ++ ascii " " ++ writeField true cron.month ++ ascii " " ++
    writeField false cron.day_of_week

theorem stoi_decimal {n : ℕ} (small : n < 2 ^ 31) : stoi (decimal n) = .ok n := by
  obtain ⟨c, tail, shape⟩ := List.exists_cons_of_ne_nil (decimal_ne_nil n)
  have digit : isDigit c = true := isDigit_decimal c (by rw [shape]; exact List.mem_cons_self)
  obtain ⟨solid, minus, plus⟩ := isDigit_apart digit
  have first : (skipSign ((decimal n).dropWhile isSpace)).head?.any isDigit = true := by
    rw [shape, List.dropWhile_cons_of_neg (by simp [solid])]
    simp [skipSign, minus, plus, digit]
  have read : strtol (decimal n) = n := by
    have whole : strtol (decimalInt n ++ []) = n := strtol_decimalInt (by omega) (by omega) rfl
    rwa [List.append_nil, decimalInt, if_neg (by omega), Int.natAbs_natCast] at whole
  rw [stoi, first, read, if_neg (by decide), if_neg (by omega)]

theorem decimal_ne_star (n : ℕ) : decimal n ≠ ascii "*" := by
  intro same
  have digit : isDigit 42 = true := isDigit_decimal (n := n) 42 (by rw [same]; decide)
  exact absurd digit (by decide)

theorem verify_writeField {expression : Bytes} {lower upper value : ℤ} {adjust : Bool}
    (within : FieldIn (lower - adjustment adjust) (upper - adjustment adjust) value)
    (nonneg : 0 ≤ lower) (small : upper < 2 ^ 31) :
    verify_and_set (writeField adjust value) expression lower upper adjust = .ok value := by
  unfold writeField
  split_ifs with star
  · rw [verify_and_set, if_pos rfl, star]
  · obtain ⟨above, below⟩ := within.resolve_left star
    obtain ⟨n, shown⟩ := Int.eq_ofNat_of_zero_le (show 0 ≤ value + adjustment adjust by omega)
    rw [shown, decimalInt, if_neg (by omega), Int.natAbs_natCast, verify_and_set,
      if_neg (decimal_ne_star n), stoi_decimal (by omega)]
    have inside : ¬ ((n : ℤ) < lower ∨ upper < n) := by omega
    simp only [if_neg inside]
    cases adjust <;> simp only [adjustment, if_true, Bool.false_eq_true, if_false] at shown ⊢ <;>
      congr 1 <;> omega

theorem isWord_writeField {lower value : ℤ} {adjust : Bool} {upper : ℤ}
    (within : FieldIn lower upper value) (nonneg : 0 ≤ lower) : IsWord (writeField adjust value) := by
  unfold writeField
  split_ifs with star
  · decide +kernel
  · have shown : 0 ≤ value + adjustment adjust := by
      obtain ⟨above, -⟩ := within.resolve_left star
      cases adjust <;> simp only [adjustment, if_true, Bool.false_eq_true, if_false] <;> omega
    rw [decimalInt, if_neg (not_lt.mpr shown)]
    exact ⟨decimal_ne_nil _, fun c member => (isDigit_apart (isDigit_decimal c member)).1⟩

theorem words_space {word : Bytes} (isWord : IsWord word) (rest : Bytes) :
    words (word ++ 32 :: rest) = word :: words rest := by
  rw [words, List.splitOnP_append_cons_of_forall_mem isWord.2 32 rfl, List.filter_cons,
    if_pos (by simpa using isWord.1), words]

theorem words_last {word : Bytes} (isWord : IsWord word) : words word = [word] := by
  rw [words, List.splitOnP_eq_singleton isWord.2, List.filter_cons, if_pos (by simpa using isWord.1),
    List.filter_nil]

/-- **A valid cron is read back from its expression.** -/
theorem Cron.ofExpression_write {cron : Cron} (valid : cron.Valid) :
    Cron.ofExpression cron.write = .ok cron := by
  have space : ascii " " = [32] := rfl
  have split : words cron.write = [writeField false cron.minute, writeField false cron.hour,
      writeField false cron.day, writeField true cron.month, writeField false cron.day_of_week] := by
    rw [Cron.write, space]
    simp only [List.append_assoc, List.cons_append, List.nil_append]
    rw [words_space (isWord_writeField valid.minute le_rfl),
      words_space (isWord_writeField valid.hour le_rfl),
      words_space (isWord_writeField valid.day zero_le_one),
      words_space (isWord_writeField valid.month le_rfl),
      words_last (isWord_writeField valid.day_of_week le_rfl)]
  rw [Cron.ofExpression, split]
  simp only [bind, Except.bind, pure, Except.pure]
  rw [verify_writeField valid.minute le_rfl (by norm_num),
    verify_writeField valid.hour le_rfl (by norm_num),
    verify_writeField valid.day zero_le_one (by norm_num),
    verify_writeField valid.month zero_le_one (by norm_num),
    verify_writeField valid.day_of_week le_rfl (by norm_num)]

/-- **Expressions are accepted for the valid crons, and for no others**: a cron is read from some
expression exactly if it is valid, and exactly then it is read from the one that writes it out. -/
theorem Cron.expression_accepted_iff (cron : Cron) :
    ((∃ expression, Cron.ofExpression expression = .ok cron) ↔ cron.Valid) ∧
      (Cron.ofExpression cron.write = .ok cron ↔ cron.Valid) := by
  refine ⟨⟨?_, fun valid => ⟨cron.write, Cron.ofExpression_write valid⟩⟩,
    Cron.valid_of_ofExpression, Cron.ofExpression_write⟩
  rintro ⟨expression, accepted⟩
  exact Cron.valid_of_ofExpression accepted

end Handy.Bosma
