-- Instants and civil dates (`std/time.otter`): the number of a day, its date, and the conversions
-- between a `SystemTime` and a `DateTime` in a zone with a fixed offset.
import OtterFusion.Base.Calendar
import OtterFusion.Stdlib.NetNumbers
import OtterFusion.Stdlib.Time

open base.trapping base.calendar

namespace stdlib.time

/-! ## Days and dates -/

/-- `DateParts`. -/
structure DateParts where
  year : Int
  month : Int
  day : Int
  deriving DecidableEq, Repr

/-- `__time_floor_div`. -/
def timeFloorDiv (a b : Int) : Parse Int := do
  let q ← div a b
  let r ← rem a b
  if r < 0 then i64 (q - 1) else .value q

/-- `__time_days_from_civil`. -/
def timeDaysFromCivil (year month day : Int) : Parse Int := do
  let y ← (if month ≤ 2 then i64 (year - 1) else .value year)
  let era ← timeFloorDiv y 400
  let yoe ← i64 (y - (← i64 (era * 400)))
  let mp ← (if 2 < month then i64 (month - 3) else i64 (month + 9))
  let doy ← i64 ((← i64 ((← div (← i64 ((← i64 (153 * mp)) + 2)) 5) + day)) - 1)
  let doe ← i64 ((← i64 ((← i64 ((← i64 (yoe * 365)) + (← div yoe 4))) - (← div yoe 100))) + doy)
  i64 ((← i64 ((← i64 (era * 146097)) + doe)) - 719468)

/-- `__time_civil_from_days`. -/
def timeCivilFromDays (days : Int) : Parse DateParts := do
  let z ← i64 (days + 719468)
  let era ← timeFloorDiv z 146097
  let doe ← i64 (z - (← i64 (era * 146097)))
  let yoe ← div (← i64 ((← i64 ((← i64 (doe - (← div doe 1460))) + (← div doe 36524))) -
    (← div doe 146096))) 365
  let y ← i64 (yoe + (← i64 (era * 400)))
  let doy ← i64 (doe - (← i64 ((← i64 ((← i64 (365 * yoe)) + (← div yoe 4))) - (← div yoe 100))))
  let mp ← div (← i64 ((← i64 (5 * doy)) + 2)) 153
  let d ← i64 ((← i64 (doy - (← div (← i64 ((← i64 (153 * mp)) + 2)) 5))) + 1)
  let m ← i64 (mp + (if mp < 10 then 3 else -9))
  let y ← (if m ≤ 2 then i64 (y + 1) else .value y)
  if y < -2147483648 ∨ 2147483647 < y then timeParseError "datetime year out of range"
  else .value ⟨asI32 y, asUnsigned 8 m, asUnsigned 8 d⟩

/-! ## Instants -/

/-- `SystemTime`. -/
structure SystemTime where
  nanosSinceUnixEpoch : Int
  deriving DecidableEq, Repr

/-- `__time_nanos_per_day`. -/
def nanosPerDay : Int := 86400000000000

/-- `__time_nanos_per_hour`. -/
def nanosPerHour : Int := 3600000000000

/-- `__time_nanos_per_minute`. -/
def nanosPerMinute : Int := 60000000000

/-- `__time_nanos_per_second`. -/
def nanosPerSecond : Int := 1000000000

/-- `TimeZone.offset_seconds`. -/
def TimeZone.offsetSeconds : TimeZone → Option Int
  | .utc => some 0
  | .fixedOffset seconds => some seconds
  | .namedTimeZone _ => none

/-- `SystemTime.to_datetime`. -/
def SystemTime.toDatetime (t : SystemTime) (tz : TimeZone) : Parse DateTime :=
  match tz.offsetSeconds with
  | none => timeParseError "named timezone conversion requires timezone database"
  | some offset => do
    let localNanos ← i64 (t.nanosSinceUnixEpoch + (← i64 (offset * nanosPerSecond)))
    let days ← timeFloorDiv localNanos nanosPerDay
    let dayNanos ← i64 (localNanos - (← i64 (days * nanosPerDay)))
    let p ← timeCivilFromDays days
    let hour ← div dayNanos nanosPerHour
    let dayNanos ← rem dayNanos nanosPerHour
    let minute ← div dayNanos nanosPerMinute
    let dayNanos ← rem dayNanos nanosPerMinute
    let second ← div dayNanos nanosPerSecond
    let nanos ← rem dayNanos nanosPerSecond
    DateTime.new p.year p.month p.day (asUnsigned 8 hour) (asUnsigned 8 minute)
      (asUnsigned 8 second) (asUnsigned 32 nanos) tz

/-- `DateTime.to_system_time`. -/
def DateTime.toSystemTime (dt : DateTime) : Parse SystemTime :=
  match dt.tz.offsetSeconds with
  | none => timeParseError "named timezone conversion requires timezone database"
  | some offset => do
    let days ← timeDaysFromCivil dt.year dt.month dt.day
    let localNanos ← i64 ((← i64 ((← i64 ((← i64 ((← i64 (days * nanosPerDay)) +
      (← i64 (dt.hour * nanosPerHour)))) + (← i64 (dt.minute * nanosPerMinute)))) +
      (← i64 (dt.second * nanosPerSecond)))) + dt.nanos)
    .value ⟨← i64 (localNanos - (← i64 (offset * nanosPerSecond)))⟩

/-! ## Division -/

/-- A quotient that is rounded down is half as far from zero, but for one. -/
theorem ediv_bounds {a b : Int} (hb : 1 < b) :
    min a 0 - 1 ≤ 2 * (a / b) ∧ 2 * (a / b) ≤ max a 0 := by
  have hparts := Int.mul_ediv_add_emod a b
  have hmod := Int.emod_nonneg a (show b ≠ 0 by omega)
  have hmod' := Int.emod_lt_of_pos a (show 0 < b by omega)
  rcases lt_or_ge (a / b) 0 with hq | hq
  · have hle := Int.mul_le_mul_of_nonpos_right (show 2 ≤ b by omega) (show a / b + 1 ≤ 0 by omega)
    rw [Int.mul_add] at hle
    omega
  · have hle := Int.mul_le_mul_of_nonneg_right (show 2 ≤ b by omega) hq
    omega

/-- `__time_floor_div` rounds down, where `/` rounds to zero. -/
theorem timeFloorDiv_ok {a b : Int} (hlo : -2 ^ 63 ≤ a) (hhi : a < 2 ^ 63) (hb : 1 < b)
    (hb' : b < 2 ^ 63) : timeFloorDiv a b = .value (a / b) := by
  have hmod := Int.emod_nonneg a (show b ≠ 0 by omega)
  have hmod' := Int.emod_lt_of_pos a (show 0 < b by omega)
  have hq := ediv_bounds (a := a) hb
  unfold timeFloorDiv div rem
  rw [if_neg (by omega), if_neg (by omega), Int.tdiv_eq_ediv, Int.tmod_eq_emod,
    Int.sign_eq_one_of_pos (by omega)]
  by_cases hround : 0 ≤ a ∨ b ∣ a
  · rw [if_pos hround, if_pos hround, i64_bind (by omega), i64_bind (by omega), if_neg (by omega),
      Int.add_zero]
  · rw [if_neg hround, if_neg hround, Int.natAbs_of_nonneg (by omega), i64_bind (by omega),
      i64_bind (by omega), if_pos (by omega), Int.add_sub_cancel]
    exact i64_ok (by omega) (by omega)

/-! ## Days and dates -/

/-- The day number of a date of an `i32` year, from 1970. -/
theorem timeDaysFromCivil_eq {year month day : Int} (hvalid : (Date.mk year month day).Valid)
    (hlo : -2 ^ 31 ≤ year) (hhi : year < 2 ^ 31) :
    timeDaysFromCivil year month day = .value (dayNumber ⟨year, month, day⟩ - 719468) := by
  obtain ⟨⟨hm, hm'⟩, hd, hd'⟩ := hvalid
  have hlong : monthLength year month ≤ 31 := by
    unfold monthLength
    split_ifs <;> omega
  have hdays := Int.le_trans hd' hlong
  dsimp only at hm hm' hd hdays
  clear hd' hlong
  have hmarch : (if month ≤ 2 then i64 (year - 1) else .value year : Parse Int) =
      .value (Date.mk year month day).fromMarch.1 ∧
      (if 2 < month then i64 (month - 3) else i64 (month + 9) : Parse Int) =
        .value (Date.mk year month day).fromMarch.2 := by
    unfold Date.fromMarch
    split
    · rw [if_neg (by omega)]
      exact ⟨i64_ok (by omega) (by omega), i64_ok (by omega) (by omega)⟩
    · rw [if_pos (by omega)]
      exact ⟨rfl, i64_ok (by omega) (by omega)⟩
  have hbounds : (-2 ^ 32 ≤ (Date.mk year month day).fromMarch.1 ∧
      (Date.mk year month day).fromMarch.1 < 2 ^ 32) ∧
      (0 ≤ (Date.mk year month day).fromMarch.2 ∧ (Date.mk year month day).fromMarch.2 ≤ 11) := by
    rcases (Date.mk year month day).fromMarch_cases with ⟨hmonth, heq⟩ | ⟨hmonth, heq⟩ <;>
      rw [heq] <;> dsimp only at hmonth ⊢ <;> omega
  unfold timeDaysFromCivil dayNumber yearStart monthStart
  rw [hmarch.1, hmarch.2]
  obtain ⟨⟨hy, hy'⟩, hmp, hmp'⟩ := hbounds
  generalize (Date.mk year month day).fromMarch.1 = y at hy hy' ⊢
  generalize (Date.mk year month day).fromMarch.2 = mp at hmp hmp' ⊢
  rw [Ending.value_bind, timeFloorDiv_ok (by omega) (by omega) (by omega) (by omega)]
  have hyoe : 0 ≤ y - y / 400 * 400 ∧ y - y / 400 * 400 < 400 := by omega
  have hleap : y / 4 = 100 * (y / 400) + (y - y / 400 * 400) / 4 ∧
      y / 100 = 4 * (y / 400) + (y - y / 400 * 400) / 100 := by omega
  rw [Ending.value_bind, i64_bind (by omega), i64_bind (by omega), hleap.1, hleap.2]
  generalize hyear : y - y / 400 * 400 = yoe at hyoe ⊢
  generalize y / 400 = era at hyear ⊢
  simp only [Ending.value_bind, i64_ok (show -2 ^ 63 ≤ 153 * mp by omega) (by omega),
    i64_ok (show -2 ^ 63 ≤ 153 * mp + 2 by omega) (by omega),
    div_ok (show 0 ≤ 153 * mp + 2 by omega) (by omega) (show 0 < 5 by omega),
    i64_ok (show -2 ^ 63 ≤ (153 * mp + 2) / 5 + day by omega) (by omega),
    i64_ok (show -2 ^ 63 ≤ (153 * mp + 2) / 5 + day - 1 by omega) (by omega),
    i64_ok (show -2 ^ 63 ≤ yoe * 365 by omega) (by omega),
    div_ok (show 0 ≤ yoe by omega) (by omega) (show 0 < 4 by omega),
    i64_ok (show -2 ^ 63 ≤ yoe * 365 + yoe / 4 by omega) (by omega),
    div_ok (show 0 ≤ yoe by omega) (by omega) (show 0 < 100 by omega),
    i64_ok (show -2 ^ 63 ≤ yoe * 365 + yoe / 4 - yoe / 100 by omega) (by omega)]
  rw [i64_bind (by omega), i64_bind (by omega), i64_bind (by omega), i64_ok (by omega) (by omega)]
  congr 1
  omega

/-- The arithmetic of `__time_civil_from_days` stays in `i64`: the day from the year 0, and the
start of its era of 400 years. -/
def DayFits (days : Int) : Prop :=
  days + 719468 < 2 ^ 63 ∧ -2 ^ 63 ≤ (days + 719468) / 146097 * 146097

instance (days : Int) : Decidable (DayFits days) := inferInstanceAs (Decidable (_ ∧ _))

/-- The year of the date is an `i32`. -/
def YearFits (year : Int) : Prop := -2 ^ 31 ≤ year ∧ year < 2 ^ 31

instance (year : Int) : Decidable (YearFits year) := inferInstanceAs (Decidable (_ ∧ _))

theorem asI32_of_fits {year : Int} (h : YearFits year) : asI32 year = year := by
  obtain ⟨hlo, hhi⟩ := h
  unfold asI32
  omega

/-- The date of a day, or the error of a year that is no `i32`. -/
theorem timeCivilFromDays_eq {days : Int} (hlo : -2 ^ 63 ≤ days) (hfits : DayFits days) :
    timeCivilFromDays days =
      if YearFits (ofDayNumber (days + 719468)).year then
        .value ⟨(ofDayNumber (days + 719468)).year, (ofDayNumber (days + 719468)).month,
          (ofDayNumber (days + 719468)).day⟩
      else timeParseError "datetime year out of range" := by
  obtain ⟨hhi, hstart⟩ := hfits
  obtain ⟨c, q, t, r, hc, hq, ht, hr, hleap, hday⟩ :=
    parts_of_era (Int.emod_nonneg (days + 719468) (by omega))
      (Int.emod_lt_of_pos (days + 719468) (show 0 < 146097 by omega))
  have hyear := yearOfEra_eq hc hq ht hr hleap
  rw [← hday] at hyear
  have hdoe : days + 719468 - (days + 719468) / 146097 * 146097 = (days + 719468) % 146097 := by
    omega
  have hera : -2 ^ 47 ≤ (days + 719468) / 146097 ∧ (days + 719468) / 146097 < 2 ^ 47 := by omega
  have hdate : ofDayNumber (days + 719468) =
      dateOf (yearOfEra ((days + 719468) % 146097) + (days + 719468) / 146097 * 400)
        ((days + 719468) % 146097 - (365 * yearOfEra ((days + 719468) % 146097) +
          yearOfEra ((days + 719468) % 146097) / 4 - yearOfEra ((days + 719468) % 146097) / 100)) :=
    rfl
  unfold timeCivilFromDays
  rw [hdate, i64_bind ⟨by omega, hhi⟩, timeFloorDiv_ok (by omega) hhi (by omega) (by omega),
    Ending.value_bind, i64_bind ⟨hstart, by omega⟩, i64_bind (by omega), hdoe]
  have hlo' := Int.emod_nonneg (days + 719468) (show (146097 : Int) ≠ 0 by omega)
  have hhi' := Int.emod_lt_of_pos (days + 719468) (show (0 : Int) < 146097 by omega)
  generalize (days + 719468) / 146097 = era at hera ⊢
  generalize (days + 719468) % 146097 = doe at hday hyear hlo' hhi' ⊢
  have hyoe : 0 ≤ yearOfEra doe ∧ yearOfEra doe < 400 := by omega
  have hdoy : doe - (365 * yearOfEra doe + yearOfEra doe / 4 - yearOfEra doe / 100) = r := by
    have hfour : (100 * c + 4 * q + t) / 4 = 25 * c + q := by omega
    have hcentury : (100 * c + 4 * q + t) / 100 = c := by omega
    rw [hyear, hfour, hcentury]
    omega
  clear hc hq ht hleap hyear hday hlo hhi hstart hdoe hdate
  rw [div_bind ⟨hlo', by omega, by omega⟩, i64_bind (by omega),
    div_bind ⟨hlo', by omega, by omega⟩, i64_bind (by omega), div_bind ⟨hlo', by omega, by omega⟩,
    i64_bind (by omega), div_bind (by omega), ← yearOfEra]
  generalize yearOfEra doe = yoe at hyoe hdoy ⊢
  rw [hdoy]
  unfold dateOf
  dsimp only
  rw [i64_bind (by omega), i64_bind (by omega), i64_bind (by omega), div_bind (by omega),
    i64_bind (by omega), div_bind (by omega), i64_bind (by omega), i64_bind (by omega), hdoy]
  have hmp : 0 ≤ (5 * r + 2) / 153 ∧ (5 * r + 2) / 153 < 12 := by omega
  have hd : 1 ≤ r - (153 * ((5 * r + 2) / 153) + 2) / 5 + 1 ∧
      r - (153 * ((5 * r + 2) / 153) + 2) / 5 + 1 ≤ 31 := by omega
  rw [i64_bind (by omega), i64_bind (by omega), div_bind (by omega)]
  generalize (5 * r + 2) / 153 = mp at hmp hd ⊢
  rw [i64_bind (by omega), i64_bind (by omega), div_bind (by omega), i64_bind (by omega),
    i64_bind (by omega)]
  have hu8 : asUnsigned 8 (r - (153 * mp + 2) / 5 + 1) = r - (153 * mp + 2) / 5 + 1 :=
    Int.emod_eq_of_lt (by omega) (by omega)
  by_cases hmonth : mp < 10
  · have hm8 : asUnsigned 8 (mp + 3) = mp + 3 := Int.emod_eq_of_lt (by omega) (by omega)
    simp only [if_pos hmonth]
    rw [i64_bind (by omega), if_neg (by omega), Ending.value_bind]
    by_cases hfits : YearFits (yoe + era * 400)
    · rw [if_pos hfits, if_neg (by unfold YearFits at hfits; omega), asI32_of_fits hfits, hm8, hu8]
    · rw [if_neg hfits, if_pos (by unfold YearFits at hfits; omega)]
  · have hm8 : asUnsigned 8 (mp + -9) = mp - 9 := Int.emod_eq_of_lt (by omega) (by omega)
    simp only [if_neg hmonth]
    rw [i64_bind (by omega), if_pos (by omega), i64_bind (by omega)]
    by_cases hfits : YearFits (yoe + era * 400 + 1)
    · rw [if_pos hfits, if_neg (by unfold YearFits at hfits; omega), asI32_of_fits hfits, hm8, hu8]
    · rw [if_neg hfits, if_pos (by unfold YearFits at hfits; omega)]

/-- The days of the dates of `i32` years. -/
def DayInYears (days : Int) : Prop := -784353015833 ≤ days ∧ days ≤ 784351576776

instance (days : Int) : Decidable (DayInYears days) := inferInstanceAs (Decidable (_ ∧ _))

theorem yearFits_iff {date : Date} (hvalid : date.Valid) :
    YearFits date.year ↔ DayInYears (dayNumber date - 719468) := by
  have hfirst : dayNumber ⟨-2147483648, 1, 1⟩ = -784353015833 + 719468 := by decide
  have hlast : dayNumber ⟨2147483647, 12, 31⟩ = 784351576776 + 719468 := by decide
  have hvalidFirst : (Date.mk (-2147483648) 1 1).Valid := by decide
  have hvalidLast : (Date.mk 2147483647 12 31).Valid := by decide
  have hlong : monthLength date.year 12 = 31 := rfl
  obtain ⟨⟨hm, hm'⟩, hd, hd'⟩ := id hvalid
  unfold YearFits DayInYears
  constructor
  · rintro ⟨hlo, hhi⟩
    constructor
    · rcases date.before_or_eq_or_before ⟨-2147483648, 1, 1⟩ with hlt | heq | hlt
      · unfold Date.Before at hlt
        dsimp only at hlt
        omega
      · rw [heq, hfirst]
        omega
      · have := dayNumber_lt hvalidFirst hvalid hlt
        omega
    · rcases date.before_or_eq_or_before ⟨2147483647, 12, 31⟩ with hlt | heq | hlt
      · have := dayNumber_lt hvalid hvalidLast hlt
        omega
      · rw [heq, hlast]
        omega
      · unfold Date.Before at hlt
        dsimp only at hlt
        rcases hlt with hlt | ⟨_, hlt | ⟨hmonth, hlt⟩⟩
        · omega
        · omega
        · rw [← hmonth, hlong] at hd'
          omega
  · rintro ⟨hlo, hhi⟩
    constructor
    · by_contra hyear
      have := dayNumber_lt hvalid hvalidFirst (.inl (by dsimp only; omega))
      omega
    · by_contra hyear
      have := dayNumber_lt hvalidLast hvalid (.inl (by dsimp only; omega))
      omega

/-- A day of an `i32` year has a date, and the date has the day. -/
theorem date_of_day {days : Int} (h : DayInYears days) :
    ∃ p, timeCivilFromDays days = .value p ∧ (Date.mk p.year p.month p.day).Valid ∧
      YearFits p.year ∧ timeDaysFromCivil p.year p.month p.day = .value days := by
  obtain ⟨hvalid, hnumber⟩ := ofDayNumber_spec (days + 719468)
  have hyear : YearFits (ofDayNumber (days + 719468)).year := by
    rw [yearFits_iff hvalid, hnumber, Int.add_sub_cancel]
    exact h
  unfold DayInYears at h
  have hcivil := @timeCivilFromDays_eq days (by omega) ⟨by omega, by omega⟩
  rw [if_pos hyear] at hcivil
  generalize ofDayNumber (days + 719468) = date at *
  refine ⟨⟨date.year, date.month, date.day⟩, hcivil, hvalid, hyear, ?_⟩
  rw [timeDaysFromCivil_eq hvalid hyear.1 hyear.2]
  refine congrArg _ ?_
  show dayNumber date - 719468 = days
  omega

theorem day_of_date {date : Date} (hvalid : date.Valid) (hyear : YearFits date.year) :
    timeDaysFromCivil date.year date.month date.day = .value (dayNumber date - 719468) ∧
      timeCivilFromDays (dayNumber date - 719468) = .value ⟨date.year, date.month, date.day⟩ := by
  have hdays := (yearFits_iff hvalid).mp hyear
  unfold DayInYears at hdays
  refine ⟨timeDaysFromCivil_eq hvalid hyear.1 hyear.2, ?_⟩
  rw [timeCivilFromDays_eq (by omega) ⟨by omega, by omega⟩, Int.sub_add_cancel,
    ofDayNumber_dayNumber hvalid, if_pos hyear]

theorem year_of_no_date {days : Int} (hlo : -2 ^ 63 ≤ days) (hfits : DayFits days)
    (h : ¬DayInYears days) :
    timeCivilFromDays days = timeParseError "datetime year out of range" := by
  obtain ⟨hvalid, hnumber⟩ := ofDayNumber_spec (days + 719468)
  rw [timeCivilFromDays_eq hlo hfits, if_neg]
  rw [yearFits_iff hvalid, hnumber, Int.add_sub_cancel]
  exact h

/-- Without room in `i64` the arithmetic of `__time_civil_from_days` panics. -/
theorem timeCivilFromDays_trap {days : Int} (hlo : -2 ^ 63 ≤ days) (hhi : days < 2 ^ 63)
    (hfits : ¬DayFits days) : timeCivilFromDays days = .trap .overflow := by
  unfold DayFits at hfits
  unfold timeCivilFromDays
  by_cases hsum : days + 719468 < 2 ^ 63
  · rw [i64_bind ⟨by omega, hsum⟩, timeFloorDiv_ok (by omega) hsum (by omega) (by omega),
      Ending.value_bind, i64_trap (.inl (by omega)), Ending.trap_bind]
  · rw [i64_trap (.inr (by omega)), Ending.trap_bind]

/-! ## Instants -/

theorem isLeapYear_eq (year : Int) : isLeapYear year = decide (Leap year) := by
  have htmod : ∀ b : Int, year.tmod b = 0 ↔ year % b = 0 := by
    intro b
    rw [← Int.dvd_iff_tmod_eq_zero, Int.dvd_iff_emod_eq_zero]
  rw [Bool.eq_iff_iff, decide_eq_true_eq]
  unfold isLeapYear Leap
  simp only [Bool.or_eq_true, Bool.and_eq_true, beq_iff_eq, bne_iff_ne, ne_eq, htmod]

theorem daysInMonth_eq (year month : Int) : daysInMonth year month = monthLength year month := by
  unfold daysInMonth monthLength
  simp only [isLeapYear_eq, decide_eq_true_eq]

/-- What `DateTime.new` accepts. -/
theorem DateTime.new_ok {dt : DateTime} (hdate : (Date.mk dt.year dt.month dt.day).Valid)
    (hhour : 0 ≤ dt.hour ∧ dt.hour ≤ 23) (hminute : 0 ≤ dt.minute ∧ dt.minute ≤ 59)
    (hsecond : 0 ≤ dt.second ∧ dt.second ≤ 59) (hnanos : dt.nanos ≤ 999999999) :
    DateTime.new dt.year dt.month dt.day dt.hour dt.minute dt.second dt.nanos dt.tz =
      .value dt := by
  obtain ⟨⟨hm, hm'⟩, hd, hd'⟩ := hdate
  dsimp only at hm hm' hd hd'
  unfold DateTime.new
  rw [daysInMonth_eq, if_neg (by omega), if_neg (by omega), if_neg (by omega), if_neg (by omega),
    if_neg (by omega), if_neg (by omega)]

/-- An instant whose local time is an `i64`, and the start of its local day too. -/
def InstantFits (t : SystemTime) (offset : Int) : Prop :=
  t.nanosSinceUnixEpoch + offset * nanosPerSecond < 2 ^ 63 ∧
    -2 ^ 63 ≤ (t.nanosSinceUnixEpoch + offset * nanosPerSecond) / nanosPerDay * nanosPerDay

instance (t : SystemTime) (offset : Int) : Decidable (InstantFits t offset) :=
  inferInstanceAs (Decidable (_ ∧ _))

/-- There and back an instant is the same. -/
theorem toDatetime_toSystemTime {t : SystemTime} {tz : TimeZone} {offset : Int}
    (htz : tz.offsetSeconds = some offset) (hoffset : -2 ^ 31 ≤ offset ∧ offset < 2 ^ 31)
    (ht : -2 ^ 63 ≤ t.nanosSinceUnixEpoch ∧ t.nanosSinceUnixEpoch < 2 ^ 63)
    (hfits : InstantFits t offset) :
    ∃ dt, t.toDatetime tz = .value dt ∧ dt.toSystemTime = .value t := by
  obtain ⟨nanos⟩ := t
  unfold InstantFits nanosPerSecond nanosPerDay at hfits
  obtain ⟨hhi, hlo⟩ := hfits
  dsimp only at ht hhi hlo
  have hdays : DayInYears ((nanos + offset * 1000000000) / 86400000000000) := by
    unfold DayInYears
    omega
  obtain ⟨p, hp, hvalid, hyear, hback⟩ := date_of_day hdays
  unfold SystemTime.toDatetime
  rw [htz]
  dsimp only
  unfold nanosPerDay nanosPerHour nanosPerMinute nanosPerSecond
  rw [i64_bind (by omega), i64_bind ⟨by omega, hhi⟩,
    timeFloorDiv_ok (by omega) hhi (by omega) (by omega), Ending.value_bind,
    i64_bind ⟨hlo, by omega⟩, i64_bind (by omega), hp, Ending.value_bind]
  have hday : 0 ≤ nanos + offset * 1000000000 -
      (nanos + offset * 1000000000) / 86400000000000 * 86400000000000 ∧
      nanos + offset * 1000000000 -
        (nanos + offset * 1000000000) / 86400000000000 * 86400000000000 < 86400000000000 := by omega
  generalize hdayNanos : nanos + offset * 1000000000 -
    (nanos + offset * 1000000000) / 86400000000000 * 86400000000000 = dayNanos at hday ⊢
  generalize (nanos + offset * 1000000000) / 86400000000000 = day at *
  rw [div_bind ⟨hday.1, by omega, by omega⟩, rem_bind ⟨hday.1, by omega, by omega⟩,
    div_bind (by omega), rem_bind (by omega), div_bind (by omega), rem_bind (by omega)]
  have hparts : dayNanos = dayNanos / 3600000000000 * 3600000000000 +
      dayNanos % 3600000000000 / 60000000000 * 60000000000 +
      dayNanos % 3600000000000 % 60000000000 / 1000000000 * 1000000000 +
      dayNanos % 3600000000000 % 60000000000 % 1000000000 := by omega
  have hhour : 0 ≤ dayNanos / 3600000000000 ∧ dayNanos / 3600000000000 ≤ 23 := by omega
  have hminute : 0 ≤ dayNanos % 3600000000000 / 60000000000 ∧
      dayNanos % 3600000000000 / 60000000000 ≤ 59 := by omega
  have hsecond : 0 ≤ dayNanos % 3600000000000 % 60000000000 / 1000000000 ∧
      dayNanos % 3600000000000 % 60000000000 / 1000000000 ≤ 59 := by omega
  have hrest : 0 ≤ dayNanos % 3600000000000 % 60000000000 % 1000000000 ∧
      dayNanos % 3600000000000 % 60000000000 % 1000000000 ≤ 999999999 := by omega
  generalize dayNanos / 3600000000000 = hour at *
  generalize dayNanos % 3600000000000 / 60000000000 = minute at *
  generalize dayNanos % 3600000000000 % 60000000000 / 1000000000 = second at *
  generalize dayNanos % 3600000000000 % 60000000000 % 1000000000 = rest at *
  have hcasts : asUnsigned 8 hour = hour ∧ asUnsigned 8 minute = minute ∧
      asUnsigned 8 second = second ∧ asUnsigned 32 rest = rest :=
    ⟨Int.emod_eq_of_lt (by omega) (by omega), Int.emod_eq_of_lt (by omega) (by omega),
      Int.emod_eq_of_lt (by omega) (by omega), Int.emod_eq_of_lt (by omega) (by omega)⟩
  rw [hcasts.1, hcasts.2.1, hcasts.2.2.1, hcasts.2.2.2]
  refine ⟨⟨p.year, p.month, p.day, hour, minute, second, rest, tz⟩,
    @DateTime.new_ok ⟨p.year, p.month, p.day, hour, minute, second, rest, tz⟩ hvalid hhour
      hminute hsecond hrest.2, ?_⟩
  unfold DateTime.toSystemTime
  dsimp only
  rw [htz]
  dsimp only
  unfold nanosPerDay nanosPerHour nanosPerMinute nanosPerSecond
  rw [hback, Ending.value_bind, i64_bind (by omega), i64_bind (by omega), i64_bind (by omega),
    i64_bind (by omega), i64_bind (by omega), i64_bind (by omega), i64_bind (by omega),
    i64_bind (by omega), i64_bind (by omega), i64_bind (by omega)]
  refine congrArg _ (congrArg _ ?_)
  omega

theorem toDatetime_trap {t : SystemTime} {tz : TimeZone} {offset : Int}
    (htz : tz.offsetSeconds = some offset) (hoffset : -2 ^ 31 ≤ offset ∧ offset < 2 ^ 31)
    (hfits : ¬InstantFits t offset) : t.toDatetime tz = .trap .overflow := by
  obtain ⟨nanos⟩ := t
  unfold InstantFits nanosPerSecond nanosPerDay at hfits
  dsimp only at hfits
  unfold SystemTime.toDatetime
  rw [htz]
  dsimp only
  unfold nanosPerDay nanosPerSecond
  rw [i64_bind (by omega)]
  by_cases hlocal : -2 ^ 63 ≤ nanos + offset * 1000000000 ∧ nanos + offset * 1000000000 < 2 ^ 63
  · rw [i64_bind ⟨hlocal.1, hlocal.2⟩, timeFloorDiv_ok hlocal.1 hlocal.2 (by omega) (by omega),
      Ending.value_bind, i64_trap (.inl (by omega)), Ending.trap_bind]
  · rw [i64_trap (by omega), Ending.trap_bind]

/-! ## Days are dates -/

/-- The dates of `i32` years are the days between the first and the last of them, in their order. On
the other days of the `i64` arithmetic there is an error. An instant is the same after a conversion
there and back, and there is a conversion when its local day fits. -/
theorem days_are_dates :
    (∀ days : Int, -2 ^ 63 ≤ days → days < 2 ^ 63 →
      (DayFits days → DayInYears days →
        ∃ p, timeCivilFromDays days = .value p ∧ (Date.mk p.year p.month p.day).Valid ∧
          YearFits p.year ∧ timeDaysFromCivil p.year p.month p.day = .value days) ∧
      (DayFits days → ¬DayInYears days →
        timeCivilFromDays days = timeParseError "datetime year out of range")) ∧
    (∀ date : Date, date.Valid → YearFits date.year →
      ∃ days, timeDaysFromCivil date.year date.month date.day = .value days ∧
        timeCivilFromDays days = .value ⟨date.year, date.month, date.day⟩) ∧
    (∀ d e : Date, d.Valid → e.Valid → YearFits d.year → YearFits e.year → d.Before e →
      ∃ m n, timeDaysFromCivil d.year d.month d.day = .value m ∧
        timeDaysFromCivil e.year e.month e.day = .value n ∧ m < n) ∧
    (∀ (t : SystemTime) (tz : TimeZone) (offset : Int), tz.offsetSeconds = some offset →
      -2 ^ 31 ≤ offset ∧ offset < 2 ^ 31 →
      -2 ^ 63 ≤ t.nanosSinceUnixEpoch ∧ t.nanosSinceUnixEpoch < 2 ^ 63 →
      (∀ dt, t.toDatetime tz = .value dt → dt.toSystemTime = .value t) ∧
      (InstantFits t offset → ∃ dt, t.toDatetime tz = .value dt)) := by
  refine ⟨fun days hlo _ => ⟨fun _ h => date_of_day h, year_of_no_date hlo⟩, ?_, ?_, ?_⟩
  · intro date hvalid hyear
    exact ⟨_, day_of_date hvalid hyear⟩
  · intro d e hd he hdyear heyear hbefore
    refine ⟨_, _, (day_of_date hd hdyear).1, (day_of_date he heyear).1, ?_⟩
    exact Int.sub_lt_sub_right (dayNumber_lt hd he hbefore) _
  · intro t tz offset htz hoffset ht
    have hback : InstantFits t offset →
        ∃ dt, t.toDatetime tz = .value dt ∧ dt.toSystemTime = .value t :=
      toDatetime_toSystemTime htz hoffset ht
    refine ⟨fun dt hdt => ?_, fun hfits => (hback hfits).imp fun _ h => h.1⟩
    by_cases hfits : InstantFits t offset
    · obtain ⟨dt', hdt', hsame⟩ := hback hfits
      obtain rfl := Ending.value.inj (hdt.symm.trans hdt')
      exact hsame
    · rw [toDatetime_trap htz hoffset hfits] at hdt
      cases hdt

/-- A day of an era before the year 0, a leap day, two days of one month, and an instant before 1970
in a zone to the east. -/
theorem days_are_dates_at :
    (∃ p, timeCivilFromDays (-719469) = .value p ∧ (Date.mk p.year p.month p.day).Valid ∧
      YearFits p.year ∧ timeDaysFromCivil p.year p.month p.day = .value (-719469)) ∧
    (∃ days, timeDaysFromCivil 2000 2 29 = .value days ∧
      timeCivilFromDays days = .value ⟨2000, 2, 29⟩) ∧
    (∃ m n, timeDaysFromCivil 1970 1 1 = .value m ∧ timeDaysFromCivil 1970 1 2 = .value n ∧
      m < n) ∧
    (∃ dt, SystemTime.toDatetime ⟨-1⟩ (.fixedOffset 3600) = .value dt ∧
      dt.toSystemTime = .value ⟨-1⟩) := by
  obtain ⟨hdays, hdates, horder, hinstants⟩ := days_are_dates
  refine ⟨?_, ?_, ?_, ?_⟩
  · exact (hdays (-719469) (by decide) (by decide)).1 (by decide) (by decide)
  · exact hdates ⟨2000, 2, 29⟩ (by decide) (by decide)
  · exact horder ⟨1970, 1, 1⟩ ⟨1970, 1, 2⟩ (by decide) (by decide) (by decide) (by decide)
      (.inr ⟨rfl, .inr ⟨rfl, by decide⟩⟩)
  · have hinstant := hinstants ⟨-1⟩ (.fixedOffset 3600) 3600 rfl (by decide) (by decide)
    obtain ⟨dt, hdt⟩ := hinstant.2 (by decide)
    exact ⟨dt, hdt, hinstant.1 dt hdt⟩

/-- The arithmetic on this day stays in `i64`, and there is no date. -/
theorem day_without_date : DayFits 1000000000000 ∧
    ¬∃ p, timeCivilFromDays 1000000000000 = .value p := by
  refine ⟨by decide, ?_⟩
  rintro ⟨p, hp⟩
  rw [year_of_no_date (by decide) (by decide) (by decide)] at hp
  cases hp

end stdlib.time
