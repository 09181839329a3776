-- The time conversions (`std/time.otter`) and `BytesCursor.seek` (`std/bytes.otter`) in a debug
-- build, where an overflow panics, and in a release build, where it wraps. They are written over
-- what a result in `i64` is; without an overflow both builds end alike.
import OtterFusion.Stdlib.BufferedIo
import OtterFusion.Stdlib.Civil
import OtterFusion.Stdlib.HashTraps
import OtterFusion.Stdlib.Rand

open base.trapping
open stdlib.hash (Panics)
open stdlib.rand (Build asI64)

namespace stdlib

/-- What a result in `i64` is. -/
abbrev Wide (E : Type) := Int → Run E Int

/-- A result in `i64`, in a build. -/
def wide {E : Type} : Build → Wide E
  | .debug => i64
  | .release => fun n => .value (asI64 n)

theorem asI64_fits {n : Int} (hlo : -2 ^ 63 ≤ n) (hhi : n < 2 ^ 63) : asI64 n = n := by
  unfold asI64
  rw [Int.bmod_eq_of_le (by omega) (by omega)]

theorem wide_follows {E : Type} (b : Build) (n : Int) : (i64 n : Run E Int).Follows (wide b n) := by
  cases b with
  | debug => exact .refl _
  | release =>
    intro hsafe
    cases h : (i64 n : Run E Int) with
    | value m =>
      obtain ⟨rfl, hlo, hhi⟩ := i64_iff.mp h
      exact congrArg _ (asI64_fits hlo hhi)
    | error e =>
      unfold i64 inRange at h
      split at h <;> cases h
    | trap t => exact absurd (h ▸ hsafe) (Ending.safe_trap t)

/-! ## Times -/

namespace time

/-- `__time_floor_div`. -/
def floorDivWith (op : Wide TimeError) (a b : Int) : Parse Int := do
  let q ← div a b
  let r ← rem a b
  if r < 0 then op (q - 1) else .value q

/-- `__time_days_from_civil`. -/
def daysFromCivilWith (op : Wide TimeError) (year month day : Int) : Parse Int := do
  let y ← (if month ≤ 2 then op (year - 1) else .value year)
  let era ← floorDivWith op y 400
  let yoe ← op (y - (← op (era * 400)))
  let mp ← (if 2 < month then op (month - 3) else op (month + 9))
  let doy ← op ((← op ((← div (← op ((← op (153 * mp)) + 2)) 5) + day)) - 1)
  let doe ← op ((← op ((← op ((← op (yoe * 365)) + (← div yoe 4))) - (← div yoe 100))) + doy)
  op ((← op ((← op (era * 146097)) + doe)) - 719468)

/-- `__time_civil_from_days`. -/
def civilFromDaysWith (op : Wide TimeError) (days : Int) : Parse DateParts := do
  let z ← op (days + 719468)
  let era ← floorDivWith op z 146097
  let doe ← op (z - (← op (era * 146097)))
  let yoe ← div (← op ((← op ((← op (doe - (← div doe 1460))) + (← div doe 36524))) -
    (← div doe 146096))) 365
  let y ← op (yoe + (← op (era * 400)))
  let doy ← op (doe - (← op ((← op ((← op (365 * yoe)) + (← div yoe 4))) - (← div yoe 100))))
  let mp ← div (← op ((← op (5 * doy)) + 2)) 153
  let d ← op ((← op (doy - (← div (← op ((← op (153 * mp)) + 2)) 5))) + 1)
  let m ← op (mp + (if mp < 10 then 3 else -9))
  let y ← (if m ≤ 2 then op (y + 1) else .value y)
  if y < -2147483648 ∨ 2147483647 < y then timeParseError "datetime year out of range"
  else .value ⟨asI32 y, asUnsigned 8 m, asUnsigned 8 d⟩

/-- `SystemTime.to_datetime`. -/
def SystemTime.toDatetimeWith (op : Wide TimeError) (t : SystemTime) (tz : TimeZone) :
    Parse DateTime :=
  match tz.offsetSeconds with
  | none => timeParseError "named timezone conversion requires timezone database"
  | some offset => do
    let localNanos ← op (t.nanosSinceUnixEpoch + (← op (offset * nanosPerSecond)))
    let days ← floorDivWith op localNanos nanosPerDay
    let dayNanos ← op (localNanos - (← op (days * nanosPerDay)))
    let p ← civilFromDaysWith op days
    let hour ← div dayNanos nanosPerHour
    let dayNanos ← rem dayNanos nanosPerHour
    let minute ← div dayNanos nanosPerMinute
    let dayNanos ← rem dayNanos nanosPerMinute
    let second ← div dayNanos nanosPerSecond
    let nanos ← rem dayNanos nanosPerSecond
    DateTime.new p.year p.month p.day (asUnsigned 8 hour) (asUnsigned 8 minute)
      (asUnsigned 8 second) (asUnsigned 32 nanos) tz

/-- `DateTime.to_system_time`. -/
def DateTime.toSystemTimeWith (op : Wide TimeError) (dt : DateTime) : Parse SystemTime :=
  match dt.tz.offsetSeconds with
  | none => timeParseError "named timezone conversion requires timezone database"
  | some offset => do
    let days ← daysFromCivilWith op dt.year dt.month dt.day
    let localNanos ← op ((← op ((← op ((← op ((← op (days * nanosPerDay)) +
      (← op (dt.hour * nanosPerHour)))) + (← op (dt.minute * nanosPerMinute)))) +
      (← op (dt.second * nanosPerSecond)))) + dt.nanos)
    .value ⟨← op (localNanos - (← op (offset * nanosPerSecond)))⟩

/-- With the checked results they are the functions of a debug build. -/
theorem toDatetimeWith_i64 (t : SystemTime) (tz : TimeZone) :
    t.toDatetimeWith i64 tz = t.toDatetime tz := rfl

theorem toSystemTimeWith_i64 (dt : DateTime) : dt.toSystemTimeWith i64 = dt.toSystemTime := rfl

variable {op : Wide TimeError}

theorem floorDivWith_follows (hop : ∀ n, (i64 n : Parse Int).Follows (op n)) (a b : Int) :
    (floorDivWith i64 a b).Follows (floorDivWith op a b) := by
  unfold floorDivWith
  refine .bind (.refl _) fun q => .bind (.refl _) fun r => ?_
  exact .ite (hop _) (.refl _)

theorem daysFromCivilWith_follows (hop : ∀ n, (i64 n : Parse Int).Follows (op n))
    (year month day : Int) :
    (daysFromCivilWith i64 year month day).Follows (daysFromCivilWith op year month day) := by
  unfold daysFromCivilWith
  refine .bind (.ite (hop _) (.refl _)) fun y => ?_
  refine .bind (floorDivWith_follows hop _ _) fun era => ?_
  refine .bind (hop _) fun _ => .bind (hop _) fun yoe => ?_
  refine .bind (.ite (hop _) (hop _)) fun mp => ?_
  refine .bind (hop _) fun _ => .bind (hop _) fun _ => .bind (.refl _) fun _ => ?_
  refine .bind (hop _) fun _ => .bind (hop _) fun doy => ?_
  refine .bind (hop _) fun _ => .bind (.refl _) fun _ => .bind (hop _) fun _ => ?_
  refine .bind (.refl _) fun _ => .bind (hop _) fun _ => .bind (hop _) fun doe => ?_
  exact .bind (hop _) fun _ => .bind (hop _) fun _ => hop _

theorem civilFromDaysWith_follows (hop : ∀ n, (i64 n : Parse Int).Follows (op n)) (days : Int) :
    (civilFromDaysWith i64 days).Follows (civilFromDaysWith op days) := by
  unfold civilFromDaysWith
  refine .bind (hop _) fun z => .bind (floorDivWith_follows hop _ _) fun era => ?_
  refine .bind (hop _) fun _ => .bind (hop _) fun doe => ?_
  refine .bind (.refl _) fun _ => .bind (hop _) fun _ => .bind (.refl _) fun _ => ?_
  refine .bind (hop _) fun _ => .bind (.refl _) fun _ => .bind (hop _) fun _ => ?_
  refine .bind (.refl _) fun yoe => .bind (hop _) fun _ => .bind (hop _) fun y => ?_
  refine .bind (hop _) fun _ => .bind (.refl _) fun _ => .bind (hop _) fun _ => ?_
  refine .bind (.refl _) fun _ => .bind (hop _) fun _ => .bind (hop _) fun doy => ?_
  refine .bind (hop _) fun _ => .bind (hop _) fun _ => .bind (.refl _) fun mp => ?_
  refine .bind (hop _) fun _ => .bind (hop _) fun _ => .bind (.refl _) fun _ => ?_
  refine .bind (hop _) fun _ => .bind (hop _) fun d => .bind (hop _) fun m => ?_
  exact .bind (.ite (hop _) (.refl _)) fun y => .refl _

theorem toDatetimeWith_follows (hop : ∀ n, (i64 n : Parse Int).Follows (op n)) (t : SystemTime)
    (tz : TimeZone) : (t.toDatetime tz).Follows (t.toDatetimeWith op tz) := by
  rw [← toDatetimeWith_i64]
  unfold SystemTime.toDatetimeWith
  cases tz.offsetSeconds with
  | none => exact .refl _
  | some offset =>
    refine .bind (hop _) fun _ => .bind (hop _) fun localNanos => ?_
    refine .bind (floorDivWith_follows hop _ _) fun days => ?_
    refine .bind (hop _) fun _ => .bind (hop _) fun dayNanos => ?_
    exact .bind (civilFromDaysWith_follows hop _) fun p => .refl _

theorem toSystemTimeWith_follows (hop : ∀ n, (i64 n : Parse Int).Follows (op n)) (dt : DateTime) :
    dt.toSystemTime.Follows (dt.toSystemTimeWith op) := by
  rw [← toSystemTimeWith_i64]
  unfold DateTime.toSystemTimeWith
  cases dt.tz.offsetSeconds with
  | none => exact .refl _
  | some offset =>
    refine .bind (daysFromCivilWith_follows hop _ _ _) fun days => ?_
    refine .bind (hop _) fun _ => .bind (hop _) fun _ => .bind (hop _) fun _ => ?_
    refine .bind (hop _) fun _ => .bind (hop _) fun _ => .bind (hop _) fun _ => ?_
    refine .bind (hop _) fun _ => .bind (hop _) fun localNanos => ?_
    exact .bind (hop _) fun _ => .bind (hop _) fun _ => .refl _

end time

/-! ## Seeks -/

namespace bytes

/-- `SeekFrom`. -/
inductive SeekFrom
  | start (offset : Int)
  | current (offset : Int)
  | fromEnd (offset : Int)
  deriving DecidableEq

/-- `BytesCursor.invalid_seek`. -/
def BytesCursor.invalidSeek : io.IoError := ⟨.otherIo, "invalid seek"⟩

/-- `BytesCursor.checked_seek`. -/
def BytesCursor.checkedSeek (cursor : BytesCursor) (target : Int) :
    Except io.IoError Int × BytesCursor :=
  if target < 0 then (.error invalidSeek, cursor) else (.ok target, { cursor with pos := target })

/-- `BytesCursor.seek`. -/
def BytesCursor.seekWith (op : Wide Empty) (cursor : BytesCursor) :
    SeekFrom → Panics (Except io.IoError Int × BytesCursor)
  | .start offset =>
    if 9223372036854775807 < offset then .value (.error invalidSeek, cursor)
    else .value (cursor.checkedSeek (asI64 offset))
  | .current offset => do .value (cursor.checkedSeek (← op (cursor.pos + offset)))
  | .fromEnd offset => do .value (cursor.checkedSeek (← op (cursor.data.data.length + offset)))

end bytes

end stdlib
