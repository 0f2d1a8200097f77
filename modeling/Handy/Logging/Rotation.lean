import Handy.Logging

/-!
# Rotating loses nothing

The records that the logger has written are in the files of the log, one file after the other, and
every one of these files has a name in the directory: those that were rotated have the names that
`maybeRotate` made, and the last is the one that is written to. This is kept by every call, whether
`rename`, `open` and `write` succeed or not, as long as the names are different, which they are when
the interval is a whole number of minutes and no hour of the clock comes twice.
-/

set_option autoImplicit false

namespace Handy

open Calendar DirTree

namespace Logger

variable {timezone rotateInterval time time' now : ℤ} {zone : Zone} {filename : Bytes}

/-! ## Names -/

/-- The times of which `localtime_r` can tell the year, from the epoch of the clock on. -/
def Telling (timezone time : ℤ) : Prop := timezone ≤ time ∧ time - timezone < 2 ^ 55

/-- A year that is told has at most ten digits. -/
theorem year_bounds (telling : Telling timezone time) :
    0 ≤ (brokenDown (time - timezone)).tm_year + 1900 ∧
      (brokenDown (time - timezone)).tm_year + 1900 < 10 ^ 10 := by
  obtain ⟨after, before⟩ := telling
  have year : (brokenDown (time - timezone)).tm_year + 1900 =
      yearOf ((time - timezone) / 86400 + epoch) := by
    have few := monthOf_le (leap (yearOf ((time - timezone) / 86400 + epoch)))
      ((time - timezone) / 86400 + epoch - yearStart (yearOf ((time - timezone) / 86400 + epoch)))
    simp only [brokenDown, monthIndex]
    omega
  rw [year]
  simp only [yearOf, epoch]
  split_ifs <;> omega

/-- The fields of a name are two digits each. -/
theorem twoDigits (time : ℤ) :
    (0 ≤ (brokenDown time).tm_mon + 1 ∧ (brokenDown time).tm_mon + 1 < 100) ∧
      (0 ≤ (brokenDown time).tm_mday ∧ (brokenDown time).tm_mday < 100) ∧
      (0 ≤ (brokenDown time).tm_hour ∧ (brokenDown time).tm_hour < 100) ∧
      (0 ≤ (brokenDown time).tm_min ∧ (brokenDown time).tm_min < 100) := by
  obtain ⟨-, min, hour, mday, mon, -⟩ := brokenDown_inRange time
  omega

theorem length_twoDigits {value : ℤ} (digits : 0 ≤ value ∧ value < 100) :
    (zeroPadded 2 value.toNat).length = 2 :=
  length_zeroPadded (by norm_num) (by omega)

/-- What a rotation adds to the name of the file. -/
def stamp (timezone time : ℤ) : Bytes :=
  ascii "." ++ (decimalInt ((brokenDown (time - timezone)).tm_year + 1900) ++
    zeroPadded 2 ((brokenDown (time - timezone)).tm_mon + 1).toNat ++
    zeroPadded 2 (brokenDown (time - timezone)).tm_mday.toNat ++
    zeroPadded 2 (brokenDown (time - timezone)).tm_hour.toNat ++
    zeroPadded 2 (brokenDown (time - timezone)).tm_min.toNat)

theorem stamp_ne_nil (timezone time : ℤ) : stamp timezone time ≠ [] :=
  List.append_ne_nil_of_left_ne_nil (by decide) _

/-- The name of a rotation is another one. -/
theorem ne_stamped (place : Entry Bytes) (timezone time : ℤ) :
    place ≠ (place.1, place.2 ++ stamp timezone time) := by
  intro same
  exact stamp_ne_nil _ _ (List.append_right_eq_self.mp (congrArg Prod.snd same).symm)

/-- There is no slash in what a rotation adds. -/
theorem slash_notMem_stamp (telling : Telling timezone time) : 47 ∉ stamp timezone time := by
  have digits : ∀ n, (47 : UInt8) ∉ decimal n := by
    intro n member
    have digit := isDigit_decimal 47 member
    revert digit
    decide
  have padded : ∀ n, (47 : UInt8) ∉ zeroPadded 2 n := by
    intro n member
    rcases List.mem_append.mp member with zero | digit
    · exact absurd (List.eq_of_mem_replicate zero) (by decide)
    · exact digits n digit
  have year : (47 : UInt8) ∉ decimalInt ((brokenDown (time - timezone)).tm_year + 1900) := by
    rw [decimalInt, if_neg (not_lt.mpr (year_bounds telling).1)]
    exact digits _
  have dot : (47 : UInt8) ∉ ascii "." := by decide
  simp only [stamp, List.mem_append, not_or]
  exact ⟨dot, ⟨⟨⟨year, padded _⟩, padded _⟩, padded _⟩, padded _⟩

/-- The name in full, without the limit of the buffer. -/
theorem newname_eq (steady : zone.Steady) (short : filename.length ≤ 4000)
    (telling : Telling zone.timezone time) :
    newname zone filename time = cstr filename ++ stamp zone.timezone time := by
  obtain ⟨mon, mday, hour, min⟩ := twoDigits (time - zone.timezone)
  obtain ⟨nonneg, small⟩ := year_bounds telling
  have digits : (decimalInt ((brokenDown (time - zone.timezone)).tm_year + 1900)).length ≤ 10 := by
    rw [decimalInt, if_neg (not_lt.mpr nonneg)]
    exact length_decimal_le (by norm_num) (by omega)
  have dot : (ascii ".").length = 1 := rfl
  have shorter : (cstr filename).length ≤ filename.length := (List.takeWhile_prefix _).length_le
  have fits : (cstr filename ++ stamp zone.timezone time).length ≤ 4095 := by
    simp only [stamp, List.length_append, length_twoDigits mon, length_twoDigits mday,
      length_twoDigits hour, length_twoDigits min, dot]
    omega
  rw [newname, steady time]
  simpa only [stamp, List.append_assoc] using List.take_of_length_le fits

/-- The minute that a time is in. -/
def minute (timezone time : ℤ) : ℤ := (time - timezone) / 60

/-- **Two times with one name are in one minute.** -/
theorem minute_of_stamp (one : Telling timezone time) (other : Telling timezone time')
    (same : stamp timezone time = stamp timezone time') :
    minute timezone time = minute timezone time' := by
  obtain ⟨mon, mday, hour, min⟩ := twoDigits (time - timezone)
  obtain ⟨mon', mday', hour', min'⟩ := twoDigits (time' - timezone)
  have same := List.append_cancel_left same
  obtain ⟨same, sameMin⟩ := List.append_inj' same ((length_twoDigits min).trans (length_twoDigits min').symm)
  obtain ⟨same, sameHour⟩ :=
    List.append_inj' same ((length_twoDigits hour).trans (length_twoDigits hour').symm)
  obtain ⟨same, sameMday⟩ :=
    List.append_inj' same ((length_twoDigits mday).trans (length_twoDigits mday').symm)
  obtain ⟨sameYear, sameMon⟩ :=
    List.append_inj' same ((length_twoDigits mon).trans (length_twoDigits mon').symm)
  have bounds := year_bounds one
  have bounds' := year_bounds other
  have year := decimalInt_injective (by omega) (by omega) sameYear
  have minEq := zeroPadded_injective 2 sameMin
  have hourEq := zeroPadded_injective 2 sameHour
  have mdayEq := zeroPadded_injective 2 sameMday
  have monEq := zeroPadded_injective 2 sameMon
  -- the times are put together again from their fields, but for the seconds
  have whole := seconds_brokenDown (time - timezone)
  have whole' := seconds_brokenDown (time' - timezone)
  have sec : (brokenDown (time - timezone)).tm_sec = (time - timezone) % 60 := rfl
  have sec' : (brokenDown (time' - timezone)).tm_sec = (time' - timezone) % 60 := rfl
  simp only [seconds, sec] at whole
  simp only [seconds, sec'] at whole'
  have yearEq : (brokenDown (time - timezone)).tm_year = (brokenDown (time' - timezone)).tm_year := by
    omega
  have month : (brokenDown (time - timezone)).tm_mon = (brokenDown (time' - timezone)).tm_mon := by
    omega
  rw [yearEq, month] at whole
  unfold minute
  omega

/-! ## Intervals -/

theorem interval_eq (after : timezone ≤ time) :
    interval timezone rotateInterval time = (time - timezone) / rotateInterval :=
  Int.tdiv_eq_ediv_of_nonneg (by omega)

theorem interval_mono (positive : 0 < rotateInterval) (after : timezone ≤ time) (later : time ≤ time') :
    interval timezone rotateInterval time ≤ interval timezone rotateInterval time' := by
  rw [interval_eq after, interval_eq (after.trans later)]
  exact Int.ediv_le_ediv positive (by omega)

/-- When the interval is a whole number of minutes, the times of a minute are in one. -/
theorem interval_of_minute (positive : 0 < rotateInterval) (whole : rotateInterval % 60 = 0)
    (after : timezone ≤ time) (after' : timezone ≤ time')
    (same : minute timezone time = minute timezone time') :
    interval timezone rotateInterval time = interval timezone rotateInterval time' := by
  rw [interval_eq after, interval_eq after']
  obtain ⟨minutes, rfl⟩ := Int.dvd_of_emod_eq_zero whole
  have split : ∀ time : ℤ, (time - timezone) / (60 * minutes) = minute timezone time / minutes :=
    fun time => (Int.ediv_ediv_of_nonneg (by norm_num)).symm
  rw [split, split, same]

end Logger

/-! ## What the calls of the operating system leave -/

namespace FileSystem

variable {fs : FileSystem} {place new : Entry Bytes} {src target path : Bytes} {file : ℕ}

/-- Nothing is there under a path. -/
def Free (fs : FileSystem) (path : Bytes) : Prop :=
  ∀ entry, fs.find false (pathOf path) = .ok entry → fs.entries entry = none

/-- A file is renamed to an entry that is free. -/
theorem rename_free (found : fs.find false (pathOf src) = .ok place)
    (there : fs.entries place = some (.file file))
    (found' : fs.find false (pathOf target) = .ok new) (free : fs.entries new = none) :
    ∃ fs', fs.rename none src target = (0, fs') ∧
      fs'.toDirTree = (fs.toDirTree.set place none).set new (some (.file file)) ∧
      fs'.contents = fs.contents ∧ fs'.next = fs.next := by
  refine fs.rename_renames ?_
  unfold DirTree.rename
  simp [found, found', there, free, move]

/-- Nothing is renamed if nothing is there. -/
theorem rename_nothing (found : fs.find false (pathOf src) = .ok place)
    (nothing : fs.entries place = none) (outcome : Option Errno) (target : Bytes) :
    ∃ error, fs.rename outcome src target = (-1, fs.fail error) := by
  obtain ⟨error, fails⟩ : ∃ error, fs.toDirTree.rename outcome src target = .error error := by
    unfold DirTree.rename
    rw [found]
    split
    · exact ⟨_, rfl⟩
    · exact ⟨_, rfl⟩
    · exact ⟨_, rfl⟩
    · rename_i same _
      cases same
      simp [nothing]
  exact ⟨error, fs.rename_error fails⟩

theorem rename_refused (error : Errno) (src target : Bytes) :
    fs.rename (some error) src target = (-1, fs.fail error) :=
  fs.rename_error rfl

/-- A file that is opened and not there is made. -/
theorem openAppend_free (found : fs.find false (pathOf path) = .ok place)
    (free : fs.entries place = none) :
    fs.openAppend none path = (some fs.next, fs.put place []) ∧
      (fs.put place []).toDirTree = fs.toDirTree.set place (some (.file fs.next)) ∧
      (fs.put place []).contents = Function.update fs.contents fs.next [] := by
  have followed : fs.find true (pathOf path) = .ok place :=
    find_follow found (by rw [free]; rintro _ _ ⟨⟩)
  have opened : fs.opens path = .ok place := by
    simp [opens, followed, free]
  simp [openAppend, opened, put, made, fileAt, free]

end FileSystem

namespace Logger

/-! ## The files of the log -/

/-- The log is in some files, in order, all of which are in the directory, and the last of which is
written to; the names that later rotations will give are free. -/
structure Holding (timezone : ℤ) (start : Logger) (place : Entry Bytes) (clock : ℤ) (log : Bytes)
    (logger : Logger) (fs : FileSystem) (files : List ℕ) : Prop where
  filename : logger.filename = start.filename
  rotateInterval : logger.rotateInterval = start.rotateInterval
  level : logger.level = start.level
  real : logger.realRotate = logger.lastRotate
  after : timezone ≤ logger.lastRotate
  reached : logger.lastRotate ≤ clock
  distinct : files.Nodup
  writing : ∃ front file, files = front ++ [file] ∧ logger.fd = some file
  found : fs.find false (pathOf (cstr logger.filename)) = .ok place
  named : ∀ file ∈ files, ∃ entry, fs.entries entry = some (.file file)
  current : fs.entries place = none ∨
    ∃ file, fs.entries place = some (.file file) ∧ logger.fd = some file
  fresh : ∀ time, logger.lastRotate ≤ time → Telling timezone time →
    interval timezone logger.rotateInterval time ≠
      interval timezone logger.rotateInterval logger.lastRotate →
    fs.entries (place.1, place.2 ++ stamp timezone time) = none
  holds : files.flatMap fs.contents = log

section Calls

variable {zone : Zone} {clock : ℤ} {start logger : Logger} {place : Entry Bytes} {log : Bytes}
  {fs : FileSystem} {files : List ℕ} {call : LogCall}

/-- A file that has a name is not new. -/
theorem Holding.lt_next (holding : Holding zone.timezone start place clock log logger fs files) {file : ℕ}
    (member : file ∈ files) : file < fs.next := by
  obtain ⟨path, entry⟩ := holding.named file member
  exact fs.entries_lt entry

/-- Time passes. -/
theorem Holding.later (holding : Holding zone.timezone start place clock log logger fs files) {now : ℤ}
    (later : clock ≤ now) : Holding zone.timezone start place now log logger fs files :=
  { holding with reached := holding.reached.trans later }

theorem Holding.fail (holding : Holding zone.timezone start place clock log logger fs files)
    (error : Errno) :
    Holding zone.timezone start place clock log logger (fs.fail error) files :=
  { holding with }

/-- A write adds to the last file. -/
theorem Holding.append (holding : Holding zone.timezone start place clock log logger fs files)
    {fd : ℕ} (open_ : logger.fd = some fd) (count : ℕ) (data : Bytes) :
    Holding zone.timezone start place clock (log ++ data.take count) logger
      (fs.append (.ok count) fd data) files := by
  obtain ⟨front, file, split, writing⟩ := holding.writing
  obtain rfl : fd = file := Option.some.inj (open_.symm.trans writing)
  have apart : ∀ other ∈ front, Function.update fs.contents fd
      (fs.contents fd ++ data.take count) other = fs.contents other := by
    intro other member
    refine Function.update_of_ne ?_ _ _
    rintro rfl
    have distinct := holding.distinct
    rw [split] at distinct
    exact (List.nodup_append.mp distinct).2.2 _ member _ List.mem_cons_self rfl
  refine { holding with holds := ?_ }
  have held := holding.holds
  rw [split, List.flatMap_append, List.flatMap_singleton] at held ⊢
  show front.flatMap (Function.update fs.contents fd _) ++
    Function.update fs.contents fd _ fd = _
  rw [List.flatMap_congr apart, Function.update_self, ← List.append_assoc, held]

/-- **A name that a rotation gives is in the directory of the file.** -/
theorem find_newname (steady : zone.Steady) (short : logger.filename.length ≤ 4000)
    (ends : (cstr logger.filename).getLast? ≠ some 47) {time : ℤ}
    (telling : Telling zone.timezone time)
    (found : fs.find false (pathOf (cstr logger.filename)) = .ok place) :
    fs.find false (pathOf (newname zone logger.filename time)) =
      .ok (place.1, place.2 ++ stamp zone.timezone time) := by
  have nonempty : cstr logger.filename ≠ [] := by
    intro nothing
    rw [nothing] at found
    cases found
  obtain ⟨absolute, front, name, path, path'⟩ := pathOf_append nonempty ends
    (slash_notMem_stamp telling) (stamp_ne_nil zone.timezone time)
  rw [newname_eq steady short telling, path']
  rw [path] at found
  obtain ⟨last, walked⟩ := walk_last found (name ++ stamp zone.timezone time)
  rw [last]
  exact walked

variable (steady : zone.Steady) (short : start.filename.length ≤ 4000)
  (ends : (cstr start.filename).getLast? ≠ some 47) (positive : 0 < start.rotateInterval)
  (whole : start.rotateInterval % 60 = 0)

include positive

/-- The names of later intervals stay free when the time of the last rotation is set. -/
theorem Holding.retimed (holding : Holding zone.timezone start place clock log logger fs files)
    (later : logger.lastRotate ≤ clock) (telling : Telling zone.timezone clock) :
    Holding zone.timezone start place clock log
      { logger with lastRotate := clock, realRotate := clock } fs files := by
  refine { holding with real := rfl, after := telling.1, reached := le_rfl, fresh := ?_ }
  intro time following told other
  refine holding.fresh time (later.trans following) told fun same => other ?_
  have first := interval_mono (holding.rotateInterval ▸ positive) holding.after later
  have second := interval_mono (holding.rotateInterval ▸ positive) telling.1 following
  rw [same] at second
  exact same.trans (le_antisymm first second)

include whole

/-- The file gets the name of a rotation: its own name is free, and the names of later intervals
stay free. -/
theorem Holding.moved (holding : Holding zone.timezone start place clock log logger fs files)
    (rotated : logger.lastRotate = clock) (telling : Telling zone.timezone clock) {file : ℕ}
    (entry : fs.entries place = some (.file file))
    (free : fs.entries (place.1, place.2 ++ stamp zone.timezone clock) = none) {fs' : FileSystem}
    (tree : fs'.toDirTree = (fs.toDirTree.set place none).set
      (place.1, place.2 ++ stamp zone.timezone clock) (some (.file file)))
    (contents : fs'.contents = fs.contents) :
    fs'.entries place = none ∧
      Holding zone.timezone start place clock log logger fs' files := by
  have moved := ne_stamped place zone.timezone clock
  have gone : fs'.entries place = none := by
    rw [tree, entries_set_of_ne moved, entries_set_self]
  have filled : fs'.entries (place.1, place.2 ++ stamp zone.timezone clock) = some (.file file) := by
    rw [tree, entries_set_self]
  have kept : ∀ other, other ≠ place → other ≠ (place.1, place.2 ++ stamp zone.timezone clock) →
      fs'.entries other = fs.entries other := by
    intro other differs differs'
    rw [tree, entries_set_of_ne differs', entries_set_of_ne differs]
  refine ⟨gone, { holding with
    found := ?_, named := ?_, current := .inl gone, fresh := ?_, holds := ?_ }⟩
  · have first : Alike fs.toDirTree (fs.toDirTree.set place none) := alike_set (by rw [entry]; rfl)
    rw [tree]
    refine ((alike_set ?_).find_iff _ _).mp ((first.find_iff _ _).mp holding.found)
    rw [entries_set_of_ne moved.symm, free]
    rfl
  · -- a file keeps its name, unless it is the one that was renamed
    intro other member
    obtain ⟨entry', there⟩ := holding.named other member
    by_cases same : entry' = place
    · subst same
      rw [entry] at there
      cases there
      exact ⟨_, filled⟩
    · refine ⟨entry', ?_⟩
      rw [kept entry' same, there]
      rintro rfl
      rw [free] at there
      cases there
  · intro time following told other
    rw [kept _ (ne_stamped place zone.timezone time).symm]
    · exact holding.fresh time following told other
    · intro same
      refine other (interval_of_minute ?_ ?_ told.1 (rotated.symm ▸ telling.1) ?_)
      · rw [holding.rotateInterval]; exact positive
      · rw [holding.rotateInterval]; exact whole
      · rw [rotated]
        exact minute_of_stamp told telling (List.append_cancel_left (congrArg Prod.snd same))
  · rw [contents, holding.holds]

omit positive whole in
/-- A new file is opened under the name that is free. -/
theorem Holding.reopened (holding : Holding zone.timezone start place clock log logger fs files)
    (gone : fs.entries place = none) :
    Holding zone.timezone start place clock log { logger with fd := some fs.next }
      (fs.put place []) (files ++ [fs.next]) := by
  obtain ⟨-, entered, emptied⟩ := FileSystem.openAppend_free holding.found gone
  have new : fs.next ∉ files := fun member => (holding.lt_next member).ne rfl
  have entered_self : (fs.put place []).entries place = some (.file fs.next) := by
    rw [entered, entries_set_self]
  refine { holding with
    distinct := ?_, writing := ⟨files, fs.next, rfl, rfl⟩, found := ?_, named := ?_,
    current := .inr ⟨fs.next, entered_self, rfl⟩, fresh := ?_, holds := ?_ }
  · exact List.nodup_append.mpr ⟨holding.distinct, List.nodup_singleton _, by
      rintro a member b single rfl
      exact new (List.mem_singleton.mp single ▸ member)⟩
  · rw [entered]
    exact ((alike_set (by rw [gone]; rfl)).find_iff _ _).mp holding.found
  · intro other member
    rcases List.mem_append.mp member with old | created
    · obtain ⟨entry, there⟩ := holding.named other old
      have different : entry ≠ place := by
        rintro rfl
        rw [gone] at there
        cases there
      exact ⟨entry, by rw [entered, entries_set_of_ne different, there]⟩
    · exact ⟨place, by rw [List.mem_singleton.mp created, entered_self]⟩
  · intro time following told other
    rw [entered, entries_set_of_ne (ne_stamped place zone.timezone time).symm]
    exact holding.fresh time following told other
  · have untouched : ∀ other ∈ files,
        Function.update fs.contents fs.next [] other = fs.contents other := by
      intro other member
      refine Function.update_of_ne ?_ _ _
      rintro rfl
      exact new member
    rw [emptied, List.flatMap_append, List.flatMap_congr untouched, List.flatMap_singleton,
      Function.update_self, List.append_nil, holding.holds]

include steady short ends

/-- **A rotation keeps the log**, whatever fails. -/
theorem Holding.rotate (holding : Holding zone.timezone start place clock log logger fs files)
    (now : call.now = clock) (telling : Telling zone.timezone clock)
    (due : interval zone.timezone logger.rotateInterval clock ≠
      interval zone.timezone logger.rotateInterval logger.lastRotate) :
    ∃ files', Holding zone.timezone start place clock log
      (rotate zone { logger with lastRotate := clock, realRotate := clock } fs call).1
      (rotate zone { logger with lastRotate := clock, realRotate := clock } fs call).2 files' := by
  have retimed := holding.retimed positive holding.reached telling
  have free := holding.fresh clock holding.reached telling due
  have found' := find_newname steady (holding.filename ▸ short) (holding.filename ▸ ends) telling
    holding.found
  rw [Logger.rotate]
  cases permitted : call.renamed with
  | some error =>
      simp only [now, FileSystem.rename_refused]
      exact ⟨files, retimed.fail error⟩
  | none =>
  obtain nothing | ⟨file, entry, writing⟩ := holding.current
  · obtain ⟨error, failed⟩ := FileSystem.rename_nothing holding.found nothing none
      (newname zone logger.filename clock)
    simp only [now, failed]
    exact ⟨files, retimed.fail error⟩
  · obtain ⟨fs', renamed, tree, contents, -⟩ :=
      FileSystem.rename_free holding.found entry found' free
    obtain ⟨gone, moved⟩ := retimed.moved positive whole rfl telling entry free tree contents
    simp only [now, renamed, ne_eq, not_true_eq_false, if_false]
    cases opened : call.opened with
    | some error => exact ⟨files, moved.fail error⟩
    | none =>
        simp only [(FileSystem.openAppend_free moved.found gone).1]
        exact ⟨files ++ [fs'.next], moved.reopened gone⟩

/-- `maybeRotate` keeps the log. -/
theorem Holding.maybeRotate (holding : Holding zone.timezone start place clock log logger fs files)
    (now : call.now = clock) (telling : Telling zone.timezone clock) :
    ∃ files', Holding zone.timezone start place clock log (logger.maybeRotate zone fs call).1
      (logger.maybeRotate zone fs call).2 files' := by
  rw [Logger.maybeRotate, now]
  by_cases early : logger.filename = [] ∨ interval zone.timezone logger.rotateInterval clock =
      interval zone.timezone logger.rotateInterval logger.lastRotate
  · rw [if_pos early]
    exact ⟨files, holding⟩
  · obtain ⟨-, due⟩ := not_or.mp early
    rw [if_neg early]
    simp only [holding.real]
    rw [if_neg fun same => due same.symm]
    exact holding.rotate steady short ends positive whole now telling due

/-- What a call adds to the log. -/
def accepted (zone : Zone) (level : LogLevel) (call : LogCall) : Bytes :=
  if level.toNat < call.level.toNat then []
  else
    match call.written with
    | .error _ => []
    | .ok count => (record zone call).take count

/-- **A call adds its record to the log.** -/
theorem Holding.logv (holding : Holding zone.timezone start place clock log logger fs files)
    (later : clock ≤ call.now) (telling : Telling zone.timezone call.now) :
    ∃ files', Holding zone.timezone start place call.now (log ++ accepted zone start.level call)
      (logger.logv zone fs call).1 (logger.logv zone fs call).2 files' := by
  have holding := holding.later later
  rw [Logger.logv, accepted, holding.level]
  by_cases disabled : start.level.toNat < call.level.toNat
  · simp only [if_pos disabled, List.append_nil]
    exact ⟨files, holding⟩
  · obtain ⟨files', rotated⟩ := holding.maybeRotate steady short ends positive whole rfl telling
    obtain ⟨front, file, -, writing⟩ := rotated.writing
    simp only [if_neg disabled, writing]
    refine ⟨files', ?_⟩
    cases written : call.written with
    | error error =>
        rw [List.append_nil]
        exact rotated.fail error
    | ok count => exact rotated.append writing count _

end Calls

/-- The calls of `logv` that are made one after the other. -/
def logvAll (zone : Zone) (logger : Logger) (fs : FileSystem) (calls : List LogCall) :
    Logger × FileSystem :=
  calls.foldl (fun state call => state.1.logv zone state.2 call) (logger, fs)

section Runs

variable {zone : Zone} {clock : ℤ} {start logger : Logger} {place : Entry Bytes} {log : Bytes}
  {fs : FileSystem} {files : List ℕ} {calls : List LogCall}

/-- The calls of a run add their records in order. -/
theorem Holding.logvAll (steady : zone.Steady) (short : start.filename.length ≤ 4000)
    (ends : (cstr start.filename).getLast? ≠ some 47) (positive : 0 < start.rotateInterval)
    (whole : start.rotateInterval % 60 = 0)
    (holding : Holding zone.timezone start place clock log logger fs files)
    (order : (clock :: calls.map LogCall.now).Pairwise (· ≤ ·))
    (telling : ∀ call ∈ calls, Telling zone.timezone call.now) :
    ∃ clock' files', Holding zone.timezone start place clock'
      (log ++ calls.flatMap (accepted zone start.level))
      (logger.logvAll zone fs calls).1 (logger.logvAll zone fs calls).2 files' := by
  induction calls generalizing clock log logger fs files with
  | nil =>
      rw [List.flatMap_nil, List.append_nil]
      exact ⟨clock, files, holding⟩
  | cons call calls ih =>
      obtain ⟨first, rest⟩ := List.pairwise_cons.mp order
      obtain ⟨files', next⟩ := holding.logv steady short ends positive whole
        (first call.now List.mem_cons_self) (telling call List.mem_cons_self)
      rw [List.flatMap_cons, ← List.append_assoc]
      exact ih next rest fun other member => telling other (List.mem_cons_of_mem call member)

end Runs

end Logger

open Logger

/-- **Rotating loses nothing.** The zone has no summer time, the interval is a whole number of
minutes, the clock does not go back, and the names that rotations will give are free. Then after
every number of calls, whatever fails, the log is in files that all have a name: the bytes that
`write` took are in them, in order, and the last one is written to. -/
theorem rotation_loses_nothing {zone : Zone} {logger : Logger} {fs : FileSystem} {fd : ℕ}
    {place : Entry Bytes} (calls : List LogCall) (steady : zone.Steady)
    (short : logger.filename.length ≤ 4000)
    (ends : (cstr logger.filename).getLast? ≠ some 47) (positive : 0 < logger.rotateInterval)
    (whole : logger.rotateInterval % 60 = 0)
    (real : logger.realRotate = logger.lastRotate) (after : zone.timezone ≤ logger.lastRotate)
    (opened : logger.fd = some fd)
    (found : fs.find false (pathOf (cstr logger.filename)) = .ok place)
    (entry : fs.entries place = some (.file fd))
    (order : (logger.lastRotate :: calls.map LogCall.now).Pairwise (· ≤ ·))
    (telling : ∀ call ∈ calls, Telling zone.timezone call.now)
    (free : ∀ time, logger.lastRotate ≤ time → Telling zone.timezone time →
      interval zone.timezone logger.rotateInterval time ≠
        interval zone.timezone logger.rotateInterval logger.lastRotate →
      fs.Free (newname zone logger.filename time)) :
    ∃ front file, (front ++ [file]).Nodup ∧ (logger.logvAll zone fs calls).1.fd = some file ∧
      (∀ other ∈ front ++ [file], ∃ entry,
        (logger.logvAll zone fs calls).2.entries entry = some (.file other)) ∧
      (front ++ [file]).flatMap (logger.logvAll zone fs calls).2.contents =
        fs.contents fd ++ calls.flatMap (accepted zone logger.level) := by
  have start : Holding zone.timezone logger place logger.lastRotate (fs.contents fd) logger fs [fd] := {
    filename := rfl
    rotateInterval := rfl
    level := rfl
    real := real
    after := after
    reached := le_rfl
    distinct := List.nodup_singleton fd
    writing := ⟨[], fd, rfl, opened⟩
    found := found
    named := fun file member => ⟨place, by rw [List.mem_singleton.mp member, entry]⟩
    current := .inr ⟨fd, entry, opened⟩
    fresh := fun time later told other => free time later told other _
      (find_newname steady short ends told found)
    holds := List.flatMap_singleton .. }
  obtain ⟨clock, files, final⟩ := start.logvAll steady short ends positive whole order telling
  obtain ⟨front, file, rfl, writing⟩ := final.writing
  exact ⟨front, file, final.distinct, writing, final.named, final.holds⟩

/-- A logger that writes to the file `a`, from the epoch on. -/
def logOf (rotateInterval : ℤ) : Logger :=
  { fd := some 0, level := .LINFO, lastRotate := 0, realRotate := 0,
    rotateInterval := rotateInterval, filename := ascii "a" }

/-- A call at some time, in which nothing fails. -/
def callAt (now : ℤ) : LogCall :=
  { level := .LINFO, file := ascii "f.cc", line := 1, message := ascii "m", now := now,
    seconds := now, usec := 0, tid := 1, renamed := none, opened := none, written := .ok 4095 }

/-- UTC. -/
def utc : Zone := ⟨0, brokenDown⟩

theorem steady_utc : utc.Steady := fun time => congrArg brokenDown (sub_zero time).symm

/-- Only the name `a` itself is taken. -/
theorem entries_oneFile {suffix : Bytes} (more : suffix ≠ []) :
    FileSystem.oneFile.entries (0, ascii "a" ++ suffix) = none := by
  have a : ascii "a" = [97] := rfl
  have dot : ascii "." = [46] := rfl
  have dots : ascii ".." = [46, 46] := rfl
  simp [FileSystem.oneFile, FileSystem.flat, a, dot, dots, more]

/-- The day has a new file: both have names, and hold the log. -/
theorem rotation_loses_nothing_midnight :
    ∃ front file, (front ++ [file]).Nodup ∧
      ((logOf 86400).logvAll utc .oneFile [callAt 86399, callAt 86400]).1.fd = some file ∧
      (∀ other ∈ front ++ [file], ∃ entry, ((logOf 86400).logvAll utc .oneFile
        [callAt 86399, callAt 86400]).2.entries entry = some (.file other)) ∧
      (front ++ [file]).flatMap ((logOf 86400).logvAll utc .oneFile
        [callAt 86399, callAt 86400]).2.contents =
        ascii "old" ++ [callAt 86399, callAt 86400].flatMap (accepted utc .LINFO) := by
  have short : (ascii "a").length ≤ 4000 := by decide
  have found : FileSystem.oneFile.find false (pathOf (cstr (ascii "a"))) = .ok (0, ascii "a") := by
    decide +kernel
  refine @rotation_loses_nothing utc (logOf 86400) .oneFile 0 (0, ascii "a")
    [callAt 86399, callAt 86400] steady_utc short (by decide) (by decide) (by decide) rfl le_rfl rfl
    found (by decide +kernel) (by decide) ?_ ?_
  · intro call member
    simp only [List.mem_cons, List.not_mem_nil, or_false] at member
    rcases member with rfl | rfl <;> exact ⟨by decide, by decide⟩
  · intro time _ told _ entry there
    have named := @find_newname utc (logOf 86400) _ _ steady_utc short (by decide) _ told found
    rw [named] at there
    cases there
    exact entries_oneFile (stamp_ne_nil _ _)

/-- Intervals of 90 seconds, and two rotations in one minute: the second takes the name of the
first, and the file 0, with what was logged before, has no name any more. -/
theorem rotation_overwrites :
    newname utc (ascii "a") 275 = newname utc (ascii "a") 245 ∧
      ((logOf 90).logvAll utc .oneFile [callAt 245]).2.at? (pathOf (newname utc (ascii "a") 245)) =
        some (.file 0) ∧
      ((logOf 90).logvAll utc .oneFile [callAt 245, callAt 275]).2.at?
        (pathOf (newname utc (ascii "a") 245)) = some (.file 1) := by
  decide +kernel

/-- A zone in which the clock is put back from three to two. -/
def putBack : Zone := ⟨0, fun time => brokenDown (if time < 7200 then time + 3600 else time)⟩

/-- Intervals of half an hour, and a rotation at half past two, twice. -/
theorem repeated_hour_overwrites :
    newname putBack (ascii "a") 9000 = newname putBack (ascii "a") 5400 ∧
      ((logOf 1800).logvAll putBack .oneFile [callAt 5400]).2.at?
        (pathOf (newname putBack (ascii "a") 5400)) = some (.file 0) ∧
      ((logOf 1800).logvAll putBack .oneFile [callAt 5400, callAt 9000]).2.at?
        (pathOf (newname putBack (ascii "a") 5400)) = some (.file 1) := by
  decide +kernel

end Handy
