-- Times and seeks at the limits of their types: a conversion between an instant and a civil time,
-- and a seek, is exact or reports an error exactly when each sum and product on its way is an
-- `i64`.
import OtterFusion.Stdlib.Builds
import OtterFusion.Stdlib.TimeKeys

open base.trapping base.calendar
open stdlib.hash (Panics)
open stdlib.rand (Build asI64)

namespace stdlib

namespace time

/-! ## Instants -/

/-- The nanoseconds of a civil time from the start of 1970, in its own zone. -/
def DateTime.localNanos (dt : DateTime) : Int :=
  (dayNumber ⟨dt.year, dt.month, dt.day⟩ - 719468) * nanosPerDay + dt.hour * nanosPerHour +
    dt.minute * nanosPerMinute + dt.second * nanosPerSecond + dt.nanos

/-- The offset of a zone is an `i32`. -/
theorem TimeZone.Typed.offset {tz : TimeZone} {offset : Int} (htyped : tz.Typed)
    (h : tz.offsetSeconds = some offset) : -2 ^ 31 ≤ offset ∧ offset < 2 ^ 31 := by
  cases tz with
  | utc =>
    cases h
    decide
  | fixedOffset seconds =>
    cases h
    exact htyped
  | namedTimeZone name => cases h

/-- The sums on the way to an instant are `i64`: the start of the local day, the local time and the
instant. -/
def DateTime.SumsFit (dt : DateTime) (offset : Int) : Prop :=
  -2 ^ 63 ≤ (dayNumber ⟨dt.year, dt.month, dt.day⟩ - 719468) * nanosPerDay ∧
    dt.localNanos < 2 ^ 63 ∧ -2 ^ 63 ≤ dt.localNanos - offset * nanosPerSecond ∧
    dt.localNanos - offset * nanosPerSecond < 2 ^ 63

instance (dt : DateTime) (offset : Int) : Decidable (dt.SumsFit offset) :=
  inferInstanceAs (Decidable (_ ∧ _))

/-- The constructor checks the date. -/
theorem DateTime.new_valid {year month day hour minute second nanos : Int} {tz : TimeZone}
    {dt : DateTime} (h : DateTime.new year month day hour minute second nanos tz = .value dt) :
    (Date.mk year month day).Valid := by
  unfold DateTime.new at h
  rw [daysInMonth_eq] at h
  unfold timeParseError at h
  unfold Date.Valid
  dsimp only
  split at h
  · cases h
  split at h
  · cases h
  omega

variable {dt : DateTime} {offset : Int}

/-- The parts of the sum after the first are not negative, so that the local time is the largest
before the offset is taken away. -/
theorem toSystemTime_fits (hdt : dt.Accepted) (hoffset : dt.tz.offsetSeconds = some offset)
    (hfits : dt.SumsFit offset) :
    dt.toSystemTime = .value ⟨dt.localNanos - offset * nanosPerSecond⟩ := by
  obtain ⟨-, -, -, hhour, hminute, hsecond, hnanos⟩ := DateTime.new_value hdt.new
  have hvalid := DateTime.new_valid hdt.new
  have hrange := hdt.tz.offset hoffset
  have hpos := hdt.nanos
  unfold DateTime.toSystemTime
  unfold DateTime.SumsFit at hfits
  unfold DateTime.localNanos at hfits ⊢
  rw [hoffset]
  dsimp only
  rw [timeDaysFromCivil_eq hvalid hdt.year.1 hdt.year.2, Ending.value_bind]
  unfold nanosPerDay nanosPerHour nanosPerMinute nanosPerSecond at *
  generalize dayNumber ⟨dt.year, dt.month, dt.day⟩ - 719468 = day at hfits ⊢
  obtain ⟨hday, hlocal, hlo, hhi⟩ := hfits
  rw [i64_bind ⟨hday, by omega⟩, i64_bind (by omega), i64_bind (by omega), i64_bind (by omega),
    i64_bind (by omega), i64_bind (by omega), i64_bind (by omega), i64_bind (by omega),
    i64_bind (by omega), i64_bind ⟨hlo, hhi⟩]

/-- Otherwise one of the sums overflows. -/
theorem toSystemTime_trap (hdt : dt.Accepted) (hoffset : dt.tz.offsetSeconds = some offset)
    (hfits : ¬dt.SumsFit offset) : dt.toSystemTime = .trap .overflow := by
  obtain ⟨-, -, -, hhour, hminute, hsecond, hnanos⟩ := DateTime.new_value hdt.new
  have hvalid := DateTime.new_valid hdt.new
  have hrange := hdt.tz.offset hoffset
  have hpos := hdt.nanos
  unfold DateTime.toSystemTime
  unfold DateTime.SumsFit DateTime.localNanos at hfits
  rw [hoffset]
  dsimp only
  rw [timeDaysFromCivil_eq hvalid hdt.year.1 hdt.year.2, Ending.value_bind]
  unfold nanosPerDay nanosPerHour nanosPerMinute nanosPerSecond at *
  generalize dayNumber ⟨dt.year, dt.month, dt.day⟩ - 719468 = day at hfits ⊢
  by_cases hday : -2 ^ 63 ≤ day * 86400000000000 ∧ day * 86400000000000 < 2 ^ 63
  case neg => rw [i64_trap (by omega), Ending.trap_bind]
  rw [i64_bind ⟨hday.1, hday.2⟩, i64_bind (by omega)]
  by_cases hhours : day * 86400000000000 + dt.hour * 3600000000000 < 2 ^ 63
  case neg => rw [i64_trap (by omega), Ending.trap_bind]
  rw [i64_bind ⟨by omega, hhours⟩, i64_bind (by omega)]
  by_cases hminutes :
    day * 86400000000000 + dt.hour * 3600000000000 + dt.minute * 60000000000 < 2 ^ 63
  case neg => rw [i64_trap (by omega), Ending.trap_bind]
  rw [i64_bind ⟨by omega, hminutes⟩, i64_bind (by omega)]
  by_cases hseconds : day * 86400000000000 + dt.hour * 3600000000000 + dt.minute * 60000000000 +
      dt.second * 1000000000 < 2 ^ 63
  case neg => rw [i64_trap (by omega), Ending.trap_bind]
  rw [i64_bind ⟨by omega, hseconds⟩]
  by_cases hlocal : day * 86400000000000 + dt.hour * 3600000000000 + dt.minute * 60000000000 +
      dt.second * 1000000000 + dt.nanos < 2 ^ 63
  case neg => rw [i64_trap (by omega), Ending.trap_bind]
  rw [i64_bind ⟨by omega, hlocal⟩, i64_bind (by omega), i64_trap (by omega), Ending.trap_bind]

/-! ## Both builds -/

/-- A conversion to a civil time: the civil time of exactly this instant, or an error. -/
def CivilOf (t : SystemTime) (tz : TimeZone) (x : Parse DateTime) : Prop :=
  x.Ends (fun dt => dt.Accepted ∧ dt.tz = tz ∧ dt.instant = some t.nanosSinceUnixEpoch) fun _ =>
    True

/-- A conversion to an instant: exactly the instant of this civil time, or an error. -/
def InstantOf (dt : DateTime) (x : Parse SystemTime) : Prop :=
  x.Ends (fun t => dt.instant = some t.nanosSinceUnixEpoch) fun _ => True

theorem toSystemTime_exact_iff (hdt : dt.Accepted) :
    (∀ b, InstantOf dt (dt.toSystemTimeWith (wide b))) ↔
      ∀ offset, dt.tz.offsetSeconds = some offset → dt.SumsFit offset := by
  constructor
  · intro h offset hoffset
    by_contra hfits
    have hdebug : InstantOf dt dt.toSystemTime := h .debug
    rw [toSystemTime_trap hdt hoffset hfits] at hdebug
    exact hdebug
  · intro h b
    refine (toSystemTimeWith_follows (wide_follows b) dt).ends ?_
    cases hoffset : dt.tz.offsetSeconds with
    | none =>
      unfold DateTime.toSystemTime
      rw [hoffset]
      trivial
    | some offset =>
      rw [toSystemTime_fits hdt hoffset (h offset hoffset)]
      exact congrArg (Option.map _) hoffset

/-- The year of a date that comes from a day is an `i32`. -/
theorem timeCivilFromDays_year {days : Int} {p : DateParts} (hlo : -2 ^ 63 ≤ days)
    (hhi : days < 2 ^ 63) (h : timeCivilFromDays days = .value p) : YearFits p.year := by
  by_cases hfits : DayFits days
  · rw [timeCivilFromDays_eq hlo hfits] at h
    split at h
    case isTrue hyear =>
      cases h
      exact hyear
    case isFalse => cases h
  · rw [timeCivilFromDays_trap hlo hhi hfits] at h
    cases h

/-- A civil time that comes from an instant is one that the constructor accepts. -/
theorem toDatetime_accepted {t : SystemTime} {tz : TimeZone} (hzone : tz.Typed)
    (h : t.toDatetime tz = .value dt) : dt.Accepted ∧ dt.tz = tz := by
  unfold SystemTime.toDatetime at h
  cases hoffset : tz.offsetSeconds with
  | none =>
    rw [hoffset] at h
    cases h
  | some offset =>
    rw [hoffset] at h
    obtain ⟨_, -, h⟩ := Ending.value_of_bind.mp h
    obtain ⟨localNanos, hlocal, h⟩ := Ending.value_of_bind.mp h
    obtain ⟨rfl, hlo, hhi⟩ := i64_iff.mp hlocal
    rw [timeFloorDiv_ok hlo hhi (by decide) (by decide), Ending.value_bind] at h
    obtain ⟨_, -, h⟩ := Ending.value_of_bind.mp h
    obtain ⟨_, -, h⟩ := Ending.value_of_bind.mp h
    obtain ⟨p, hp, h⟩ := Ending.value_of_bind.mp h
    have hyear :=
      timeCivilFromDays_year (by unfold nanosPerDay; omega) (by unfold nanosPerDay; omega) hp
    obtain ⟨_, -, h⟩ := Ending.value_of_bind.mp h
    obtain ⟨_, -, h⟩ := Ending.value_of_bind.mp h
    obtain ⟨_, -, h⟩ := Ending.value_of_bind.mp h
    obtain ⟨_, -, h⟩ := Ending.value_of_bind.mp h
    obtain ⟨_, -, h⟩ := Ending.value_of_bind.mp h
    obtain ⟨_, -, h⟩ := Ending.value_of_bind.mp h
    obtain ⟨rfl, -⟩ := DateTime.new_value h
    exact ⟨⟨hyear, Int.emod_nonneg _ (by decide), hzone, h⟩, rfl⟩

theorem toDatetime_exact_iff {t : SystemTime} {tz : TimeZone} (hzone : tz.Typed)
    (ht : -2 ^ 63 ≤ t.nanosSinceUnixEpoch ∧ t.nanosSinceUnixEpoch < 2 ^ 63) :
    (∀ b, CivilOf t tz (t.toDatetimeWith (wide b) tz)) ↔
      ∀ offset, tz.offsetSeconds = some offset → InstantFits t offset := by
  constructor
  · intro h offset hoffset
    by_contra hfits
    have hdebug : CivilOf t tz (t.toDatetime tz) := h .debug
    rw [toDatetime_trap hoffset (hzone.offset hoffset) hfits] at hdebug
    exact hdebug
  · intro h b
    refine (toDatetimeWith_follows (wide_follows b) t tz).ends ?_
    cases hoffset : tz.offsetSeconds with
    | none =>
      unfold SystemTime.toDatetime
      rw [hoffset]
      trivial
    | some offset =>
      obtain ⟨dt, hdt, hback⟩ :=
        toDatetime_toSystemTime hoffset (hzone.offset hoffset) ht (h offset hoffset)
      obtain ⟨haccepted, htz⟩ := toDatetime_accepted hzone hdt
      have hoffset' : dt.tz.offsetSeconds = some offset := htz ▸ hoffset
      rw [hdt]
      refine ⟨haccepted, htz, ?_⟩
      by_cases hsums : dt.SumsFit offset
      · rw [toSystemTime_fits haccepted hoffset' hsums] at hback
        cases hback
        exact congrArg (Option.map _) hoffset'
      · rw [toSystemTime_trap haccepted hoffset' hsums] at hback
        cases hback

end time

/-! ## Seeks -/

namespace bytes

/-- An offset from the start is a `u64`, another one an `i64`. -/
def SeekFrom.Fits : SeekFrom → Prop
  | .start offset => 0 ≤ offset ∧ offset < 2 ^ 64
  | .current offset | .fromEnd offset => -2 ^ 63 ≤ offset ∧ offset < 2 ^ 63

/-- The offset that a seek asks for. -/
def BytesCursor.requested (cursor : BytesCursor) : SeekFrom → Int
  | .start offset => offset
  | .current offset => cursor.pos + offset
  | .fromEnd offset => cursor.data.data.length + offset

/-- A seek: to exactly the requested offset, or an error and the cursor as it was. -/
def Sought (cursor : BytesCursor) (pos : SeekFrom)
    (x : Panics (Except io.IoError Int × BytesCursor)) : Prop :=
  x.Ends (fun r => r = (.ok (cursor.requested pos), { cursor with pos := cursor.requested pos }) ∨
    ∃ e, r = (.error e, cursor)) fun _ => False

/-- A sum with the position or with the size is an `i64`; nothing is added to an offset from the
start. -/
def BytesCursor.SeekFits (cursor : BytesCursor) : SeekFrom → Prop
  | .start _ => True
  | .current offset => -2 ^ 63 ≤ cursor.pos + offset ∧ cursor.pos + offset < 2 ^ 63
  | .fromEnd offset =>
    -2 ^ 63 ≤ cursor.data.data.length + offset ∧ cursor.data.data.length + offset < 2 ^ 63

theorem checkedSeek_sought (cursor : BytesCursor) (pos : SeekFrom) :
    Sought cursor pos (.value (cursor.checkedSeek (cursor.requested pos))) := by
  unfold BytesCursor.checkedSeek
  split
  · exact .inr ⟨_, rfl⟩
  · exact .inl rfl

/-- A seek to a sum is exact in both builds exactly when the sum is an `i64`. -/
theorem sum_sought_iff (cursor : BytesCursor) (pos : SeekFrom) :
    (∀ b, Sought cursor pos
      (wide b (cursor.requested pos) >>= fun target => .value (cursor.checkedSeek target))) ↔
      -2 ^ 63 ≤ cursor.requested pos ∧ cursor.requested pos < 2 ^ 63 := by
  constructor
  · intro h
    by_contra hfits
    have hdebug := h .debug
    unfold wide at hdebug
    dsimp only at hdebug
    rw [i64_trap (by omega)] at hdebug
    exact hdebug
  · rintro ⟨hlo, hhi⟩ b
    have hfollows : (i64 (cursor.requested pos) : Panics Int).Follows _ :=
      wide_follows b (cursor.requested pos)
    rw [i64_ok hlo hhi] at hfollows
    rw [hfollows (Ending.safe_value _), Ending.value_bind]
    exact checkedSeek_sought cursor pos

theorem seek_exact_iff {cursor : BytesCursor} {pos : SeekFrom} (hpos : pos.Fits) :
    (∀ b, Sought cursor pos (cursor.seekWith (wide b) pos)) ↔ cursor.SeekFits pos := by
  cases pos with
  | start offset =>
    obtain ⟨hlo, hhi⟩ := hpos
    constructor
    · intro _
      trivial
    · intro _ b
      unfold BytesCursor.seekWith
      dsimp only
      split
      · exact .inr ⟨_, rfl⟩
      · rw [asI64_fits (by omega) (by omega)]
        exact checkedSeek_sought cursor (.start offset)
  | current offset => exact sum_sought_iff cursor (.current offset)
  | fromEnd offset => exact sum_sought_iff cursor (.fromEnd offset)

end bytes

/-! ## All three -/

/-- The conversions and the seek are exact or report an error, in both builds, exactly when the sums
fit: the local time of an instant and the start of its local day, the start of the local day of a
civil time, its local time and its instant, and the sum of a seek. -/
theorem exact_or_error_iff (t : time.SystemTime) (tz : time.TimeZone) (dt : time.DateTime)
    (cursor : bytes.BytesCursor) (pos : bytes.SeekFrom) :
    (-2 ^ 63 ≤ t.nanosSinceUnixEpoch → t.nanosSinceUnixEpoch < 2 ^ 63 → tz.Typed →
      ((∀ b, time.CivilOf t tz (t.toDatetimeWith (wide b) tz)) ↔
        ∀ offset, tz.offsetSeconds = some offset → time.InstantFits t offset)) ∧
    (dt.Accepted →
      ((∀ b, time.InstantOf dt (dt.toSystemTimeWith (wide b))) ↔
        ∀ offset, dt.tz.offsetSeconds = some offset → dt.SumsFit offset)) ∧
    (pos.Fits →
      ((∀ b, bytes.Sought cursor pos (cursor.seekWith (wide b) pos)) ↔ cursor.SeekFits pos)) := by
  refine ⟨?_, ?_, ?_⟩
  · intro hlo hhi htz
    exact time.toDatetime_exact_iff htz ⟨hlo, hhi⟩
  · intro hdt
    exact time.toSystemTime_exact_iff hdt
  · intro hpos
    exact bytes.seek_exact_iff hpos

/-- The last instant and its time, and a seek to the last position there is. -/
theorem exact_or_error_iff_at :
    (∀ b, time.CivilOf ⟨2 ^ 63 - 1⟩ .utc
      (time.SystemTime.toDatetimeWith (wide b) ⟨2 ^ 63 - 1⟩ .utc)) ∧
    (∀ b, time.InstantOf ⟨2262, 4, 11, 23, 47, 16, 854775807, .utc⟩
      (time.DateTime.toSystemTimeWith (wide b) ⟨2262, 4, 11, 23, 47, 16, 854775807, .utc⟩)) ∧
    (∀ b, bytes.Sought ⟨⟨[7], by decide, by decide⟩, 1⟩ (.current (2 ^ 63 - 2))
      (bytes.BytesCursor.seekWith (wide b) ⟨⟨[7], by decide, by decide⟩, 1⟩
        (.current (2 ^ 63 - 2)))) := by
  obtain ⟨hinstant, htime, hseek⟩ := exact_or_error_iff ⟨2 ^ 63 - 1⟩ .utc
    ⟨2262, 4, 11, 23, 47, 16, 854775807, .utc⟩ ⟨⟨[7], by decide, by decide⟩, 1⟩
    (.current (2 ^ 63 - 2))
  refine ⟨(hinstant (by decide) (by decide) trivial).mpr ?_, (htime ?_).mpr ?_, (hseek ?_).mpr ?_⟩
  · rintro _ ⟨⟩
    decide
  · exact ⟨by decide, by decide, trivial, by decide⟩
  · rintro _ ⟨⟩
    decide
  · exact ⟨by decide, by decide⟩
  · exact ⟨by decide, by decide⟩

/-- The constructor accepts the start of the year 2300, whose instant is no `i64`: a debug build
panics, and a release build gives an instant of 1715. The last instant an hour to the east becomes a
time of 1677 in a release build. -/
theorem limits_overflow :
    (time.DateTime.Accepted ⟨2300, 1, 1, 0, 0, 0, 0, .utc⟩ ∧
      time.DateTime.toSystemTimeWith (wide .debug) ⟨2300, 1, 1, 0, 0, 0, 0, .utc⟩ =
        .trap .overflow ∧
      ¬time.InstantOf ⟨2300, 1, 1, 0, 0, 0, 0, .utc⟩
        (time.DateTime.toSystemTimeWith (wide .release) ⟨2300, 1, 1, 0, 0, 0, 0, .utc⟩)) ∧
    (time.SystemTime.toDatetimeWith (wide .debug) ⟨2 ^ 63 - 1⟩ (.fixedOffset 3600) =
        .trap .overflow ∧
      ¬time.CivilOf ⟨2 ^ 63 - 1⟩ (.fixedOffset 3600)
        (time.SystemTime.toDatetimeWith (wide .release) ⟨2 ^ 63 - 1⟩ (.fixedOffset 3600))) ∧
    bytes.BytesCursor.seekWith (wide .debug) ⟨⟨[], by decide, by decide⟩, 1⟩
      (.current (2 ^ 63 - 1)) =
      .trap .overflow := by
  refine ⟨⟨⟨by decide, by decide, trivial, by decide⟩, by decide +kernel, ?_⟩,
    ⟨by decide +kernel, ?_⟩, ?_⟩
  · intro h
    have hvalue : time.DateTime.toSystemTimeWith (wide .release) ⟨2300, 1, 1, 0, 0, 0, 0, .utc⟩ =
        .value ⟨10413792000000000000 - 2 ^ 64⟩ := by decide +kernel
    exact absurd (h.of_value hvalue) (by decide)
  · intro h
    have hvalue : time.SystemTime.toDatetimeWith (wide .release) ⟨2 ^ 63 - 1⟩ (.fixedOffset 3600) =
        .value ⟨1677, 9, 21, 1, 12, 43, 145224191, .fixedOffset 3600⟩ := by decide +kernel
    exact absurd (h.of_value hvalue).2.2 (by decide)
  · unfold bytes.BytesCursor.seekWith wide
    dsimp only
    rw [i64_trap (.inr (by decide)), Ending.trap_bind]

end stdlib
