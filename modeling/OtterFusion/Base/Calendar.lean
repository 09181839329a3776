-- The proleptic Gregorian calendar: its dates in their order are the integers. A day is counted
-- from the first of March of the year 0, so that a leap day is the last day of its year.
import Mathlib.Tactic.IntervalCases

namespace base.calendar

/-! ## Dates -/

/-- The Gregorian rule. -/
def Leap (year : Int) : Prop := year % 4 = 0 ∧ year % 100 ≠ 0 ∨ year % 400 = 0

instance (year : Int) : Decidable (Leap year) := inferInstanceAs (Decidable (_ ∨ _))

/-- The days of a month. -/
def monthLength (year month : Int) : Int :=
  if month = 2 then if Leap year then 29 else 28
  else if month = 4 ∨ month = 6 ∨ month = 9 ∨ month = 11 then 30
  else 31

structure Date where
  year : Int
  month : Int
  day : Int
  deriving DecidableEq, Repr

/-- A date of the calendar. -/
def Date.Valid (d : Date) : Prop :=
  (1 ≤ d.month ∧ d.month ≤ 12) ∧ 1 ≤ d.day ∧ d.day ≤ monthLength d.year d.month

instance (d : Date) : Decidable d.Valid := inferInstanceAs (Decidable (_ ∧ _))

/-- Dates by year, month and day. -/
def Date.Before (d e : Date) : Prop :=
  d.year < e.year ∨ d.year = e.year ∧ (d.month < e.month ∨ d.month = e.month ∧ d.day < e.day)

theorem Date.before_or_eq_or_before (d e : Date) : d.Before e ∨ d = e ∨ e.Before d := by
  obtain ⟨y, m, n⟩ := d
  obtain ⟨y', m', n'⟩ := e
  unfold Before
  rw [Date.mk.injEq]
  dsimp only
  omega

/-! ## The number of a day -/

/-- The year that starts in March, and the months since. -/
def Date.fromMarch (d : Date) : Int × Int :=
  if d.month ≤ 2 then (d.year - 1, d.month + 9) else (d.year, d.month - 3)

theorem Date.fromMarch_cases (d : Date) :
    d.month ≤ 2 ∧ d.fromMarch = (d.year - 1, d.month + 9) ∨
      2 < d.month ∧ d.fromMarch = (d.year, d.month - 3) := by
  unfold fromMarch
  split
  · rename_i h
    exact .inl ⟨h, rfl⟩
  · rename_i h
    exact .inr ⟨Int.not_le.mp h, rfl⟩

/-- The days before a year that starts in March. -/
def yearStart (year : Int) : Int := 365 * year + year / 4 - year / 100 + year / 400

/-- The days before a month of a year that starts in March: its months have 31 and 30 days in
turn, but for two of 31 days in each five. -/
def monthStart (month : Int) : Int := (153 * month + 2) / 5

/-- The days from the first of March of the year 0. -/
def dayNumber (d : Date) : Int :=
  yearStart d.fromMarch.1 + monthStart d.fromMarch.2 + d.day - 1

/-- The year of an era of 400 years that a day of the era is in. -/
def yearOfEra (dayOfEra : Int) : Int :=
  (dayOfEra - dayOfEra / 1460 + dayOfEra / 36524 - dayOfEra / 146096) / 365

/-- The date of a year that starts in March, from the days of the year before it. -/
def dateOf (year dayOfYear : Int) : Date :=
  let month := (5 * dayOfYear + 2) / 153
  let day := dayOfYear - (153 * month + 2) / 5 + 1
  if month < 10 then ⟨year, month + 3, day⟩ else ⟨year + 1, month - 9, day⟩

/-- The date of a day. -/
def ofDayNumber (n : Int) : Date :=
  let era := n / 146097
  let dayOfEra := n % 146097
  let year := yearOfEra dayOfEra
  dateOf (year + era * 400) (dayOfEra - (365 * year + year / 4 - year / 100))

/-! ## Order -/

/-- The days of a year are before the next year: 365 of them, and a leap day at the end. -/
theorem monthStart_add_lt {d : Date} (hd : d.Valid) :
    0 ≤ monthStart d.fromMarch.2 + d.day - 1 ∧
      yearStart d.fromMarch.1 + monthStart d.fromMarch.2 + d.day - 1 <
        yearStart (d.fromMarch.1 + 1) := by
  obtain ⟨⟨hm, hm'⟩, hn, hn'⟩ := hd
  unfold yearStart monthStart
  rcases d.fromMarch_cases with ⟨hmonth, hmarch⟩ | ⟨hmonth, hmarch⟩
  · rw [hmarch]
    dsimp only
    by_cases hleap : Leap d.year
    · unfold monthLength at hn'
      rw [if_pos hleap] at hn'
      unfold Leap at hleap
      split at hn' <;> omega
    · unfold monthLength at hn'
      rw [if_neg hleap] at hn'
      split at hn' <;> omega
  · rw [hmarch]
    unfold monthLength at hn'
    rw [if_neg (by omega)] at hn'
    dsimp only
    split at hn' <;> omega

theorem yearStart_mono {y y' : Int} (h : y ≤ y') : yearStart y ≤ yearStart y' := by
  unfold yearStart
  rcases Int.le_iff_lt_or_eq.mp h with h | rfl
  · omega
  · exact Int.le_refl _

/-- A month is over before a later month of its year. -/
theorem monthStart_add_le {d : Date} (hd : d.Valid) {m : Int} (h : d.fromMarch.2 < m) :
    monthStart d.fromMarch.2 + d.day ≤ monthStart m := by
  obtain ⟨⟨hd1, hd12⟩, hn, hn'⟩ := hd
  have hlength : monthLength d.year d.month ≤
      if d.month = 2 then 29 else if d.month = 4 ∨ d.month = 6 ∨ d.month = 9 ∨ d.month = 11 then 30
        else 31 := by
    unfold monthLength
    split
    · split <;> omega
    · exact Int.le_refl _
  unfold monthStart
  rcases d.fromMarch_cases with ⟨hmonth, hmarch⟩ | ⟨hmonth, hmarch⟩
  · rw [hmarch] at h ⊢
    dsimp only at h ⊢
    split at hlength
    · omega
    · split at hlength <;> omega
  · rw [hmarch] at h ⊢
    dsimp only at h ⊢
    have hnext : (153 * (d.month - 3 + 1) + 2) / 5 ≤ (153 * m + 2) / 5 := by omega
    generalize d.month = month at *
    interval_cases month <;> simp only [reduceIte, Int.reduceEq, or_self, or_false,
      or_true] at hlength <;> omega

/-- Later dates have greater numbers. -/
theorem dayNumber_lt {d e : Date} (hd : d.Valid) (he : e.Valid) (h : d.Before e) :
    dayNumber d < dayNumber e := by
  have hyear : d.fromMarch.1 < e.fromMarch.1 ∨ d.fromMarch.1 = e.fromMarch.1 ∧
      (d.fromMarch.2 < e.fromMarch.2 ∨ d.fromMarch.2 = e.fromMarch.2 ∧ d.day < e.day) := by
    obtain ⟨⟨hm, hm'⟩, _⟩ := hd
    obtain ⟨⟨hk, hk'⟩, _⟩ := he
    unfold Date.Before at h
    rcases d.fromMarch_cases with ⟨hdm, hdmarch⟩ | ⟨hdm, hdmarch⟩ <;>
      rcases e.fromMarch_cases with ⟨hem, hemarch⟩ | ⟨hem, hemarch⟩ <;>
      rw [hdmarch, hemarch] <;> dsimp only <;> omega
  unfold dayNumber
  rcases hyear with hlt | ⟨heq, hlt | ⟨hmonth, hday⟩⟩
  · have hend := (monthStart_add_lt hd).2
    have hnext := yearStart_mono hlt
    have hstart := (monthStart_add_lt he).1
    omega
  · have hend := monthStart_add_le hd hlt
    have hstart := he.2.1
    rw [heq]
    omega
  · rw [heq, hmonth]
    omega

theorem dayNumber_injective {d e : Date} (hd : d.Valid) (he : e.Valid)
    (h : dayNumber d = dayNumber e) : d = e := by
  rcases d.before_or_eq_or_before e with hlt | heq | hlt
  · exact absurd h (Int.ne_of_lt (dayNumber_lt hd he hlt))
  · exact heq
  · exact absurd h.symm (Int.ne_of_lt (dayNumber_lt he hd hlt))

/-! ## Every day has a date -/

/-- A day of an era by its century, its four years, its year of the four and its day of the year.
The leap day is a day 365: the last of four years, and of a century only the last one has it. -/
theorem parts_of_era {dayOfEra : Int} (h : 0 ≤ dayOfEra) (h' : dayOfEra < 146097) :
    ∃ c q t r : Int, (0 ≤ c ∧ c ≤ 3) ∧ (0 ≤ q ∧ q ≤ 24) ∧ (0 ≤ t ∧ t ≤ 3) ∧ (0 ≤ r ∧ r ≤ 365) ∧
      (r = 365 → t = 3 ∧ (q = 24 → c = 3)) ∧ dayOfEra = 36524 * c + 1461 * q + 365 * t + r := by
  by_cases hlast : dayOfEra = 146096
  · exact ⟨3, 24, 3, 365, by omega⟩
  by_cases hleap : dayOfEra % 36524 % 1461 = 1460
  · exact ⟨dayOfEra / 36524, dayOfEra % 36524 / 1461, 3, 365, by omega⟩
  · exact ⟨dayOfEra / 36524, dayOfEra % 36524 / 1461, dayOfEra % 36524 % 1461 / 365,
      dayOfEra % 36524 % 1461 % 365, by omega⟩

/-- The quotients of `yearOfEra` take the leap days out. -/
theorem yearOfEra_eq {c q t r : Int} (hc : 0 ≤ c ∧ c ≤ 3) (hq : 0 ≤ q ∧ q ≤ 24)
    (ht : 0 ≤ t ∧ t ≤ 3) (hr : 0 ≤ r ∧ r ≤ 365) (hleap : r = 365 → t = 3 ∧ (q = 24 → c = 3)) :
    yearOfEra (36524 * c + 1461 * q + 365 * t + r) = 100 * c + 4 * q + t := by
  unfold yearOfEra
  generalize hday : 36524 * c + 1461 * q + 365 * t + r = dayOfEra
  by_cases hend : dayOfEra = 146096
  · subst hend
    omega
  have hcentury : dayOfEra / 36524 = c := by omega
  have hera : dayOfEra / 146096 = 0 := by omega
  have hfour : dayOfEra / 1460 = 25 * c + q + (24 * c + q + 365 * t + r) / 1460 := by omega
  have hone : 0 ≤ (24 * c + q + 365 * t + r) / 1460 ∧ (24 * c + q + 365 * t + r) / 1460 ≤ 1 := by
    omega
  rw [hcentury, hera, hfour]
  omega

/-- A date from the parts of its day: it is valid, and it has the number of the day. -/
theorem dateOf_spec {era c q t r : Int} (hc : 0 ≤ c ∧ c ≤ 3) (hq : 0 ≤ q ∧ q ≤ 24)
    (ht : 0 ≤ t ∧ t ≤ 3) (hr : 0 ≤ r ∧ r ≤ 365) (hleap : r = 365 → t = 3 ∧ (q = 24 → c = 3)) :
    (dateOf (100 * c + 4 * q + t + era * 400) r).Valid ∧
      dayNumber (dateOf (100 * c + 4 * q + t + era * 400) r) =
        era * 146097 + (36524 * c + 1461 * q + 365 * t + r) := by
  have hfour : (100 * c + 4 * q + t + era * 400) / 4 = 25 * c + q + era * 100 := by omega
  have hcentury : (100 * c + 4 * q + t + era * 400) / 100 = c + era * 4 := by omega
  have hera : (100 * c + 4 * q + t + era * 400) / 400 = era := by omega
  unfold dateOf
  dsimp only
  split
  · rename_i hmonth
    refine ⟨⟨⟨by dsimp only; omega, by dsimp only; omega⟩, by dsimp only; omega, ?_⟩, ?_⟩
    · unfold monthLength
      dsimp only
      rw [if_neg (by omega)]
      split <;> omega
    · unfold dayNumber Date.fromMarch yearStart monthStart
      rw [if_neg (by dsimp only; omega)]
      dsimp only
      omega
  · rename_i hmonth
    refine ⟨⟨⟨by dsimp only; omega, by dsimp only; omega⟩, by dsimp only; omega, ?_⟩, ?_⟩
    · unfold monthLength
      dsimp only
      split
      · by_cases hyear : Leap (100 * c + 4 * q + t + era * 400 + 1)
        · rw [if_pos hyear]
          omega
        · rw [if_neg hyear]
          unfold Leap at hyear
          omega
      · rw [if_neg (by omega)]
        omega
    · unfold dayNumber Date.fromMarch yearStart monthStart
      rw [if_pos (by dsimp only; omega)]
      dsimp only
      omega

/-- Every day has a valid date with its number. -/
theorem ofDayNumber_spec (n : Int) : (ofDayNumber n).Valid ∧ dayNumber (ofDayNumber n) = n := by
  obtain ⟨c, q, t, r, hc, hq, ht, hr, hleap, hday⟩ :=
    parts_of_era (Int.emod_nonneg n (by omega)) (Int.emod_lt_of_pos n (show 0 < 146097 by omega))
  have hspec := @dateOf_spec (n / 146097) _ _ _ _ hc hq ht hr hleap
  unfold ofDayNumber
  dsimp only
  rw [hday, yearOfEra_eq hc hq ht hr hleap]
  have hfour : (100 * c + 4 * q + t) / 4 = 25 * c + q := by omega
  have hcentury : (100 * c + 4 * q + t) / 100 = c := by omega
  have hrest : 36524 * c + 1461 * q + 365 * t + r - (365 * (100 * c + 4 * q + t) +
      (100 * c + 4 * q + t) / 4 - (100 * c + 4 * q + t) / 100) = r := by
    rw [hfour, hcentury]
    omega
  rw [hrest]
  refine ⟨hspec.1, ?_⟩
  rw [hspec.2, ← hday]
  omega

/-- The date of the number of a date. -/
theorem ofDayNumber_dayNumber {d : Date} (hd : d.Valid) : ofDayNumber (dayNumber d) = d := by
  obtain ⟨hvalid, hnumber⟩ := ofDayNumber_spec (dayNumber d)
  exact dayNumber_injective hvalid hd hnumber

end base.calendar
