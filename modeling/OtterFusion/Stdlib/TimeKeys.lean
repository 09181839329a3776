-- `TimeZone` and `DateTime` as keys (`std/time.otter`): two date-times that `eq` tells equal have
-- one hash and are one instant where zones of one text are one zone.
import OtterFusion.Base.Equality
import OtterFusion.Stdlib.Hashes
import OtterFusion.Stdlib.TimeFormat

open base.trapping base.calendar base.equality stdlib.hash

namespace stdlib.time

/-! ## `TimeZone` -/

/-- `TimeZone.to_str`. -/
def TimeZone.toStr : TimeZone → Parse Text
  | .utc => .value ['U', 'T', 'C']
  | .fixedOffset seconds => (TimeZone.fixedOffset seconds).offsetString
  | .namedTimeZone name => .value name

/-- `TimeZone.equals`. -/
def TimeZone.equals (tz other : TimeZone) : Parse Bool := do
  .value (decide ((← tz.toStr) = (← other.toStr)))

/-- `TimeZone.eq`. -/
def TimeZone.eq (tz other : TimeZone) : Parse Bool := tz.equals other

/-- `TimeZone.hash`. -/
def TimeZone.hash (strHash : Text → Nat) (tz : TimeZone) : Parse Nat := do
  .value (strHash (← tz.toStr))

/-! ## `DateTime` -/

/-- The fields of a date-time that are not its zone are the same. -/
def DateTime.SameFields (dt other : DateTime) : Prop :=
  dt.year = other.year ∧ dt.month = other.month ∧ dt.day = other.day ∧ dt.hour = other.hour ∧
    dt.minute = other.minute ∧ dt.second = other.second ∧ dt.nanos = other.nanos

instance (dt other : DateTime) : Decidable (dt.SameFields other) :=
  inferInstanceAs (Decidable (_ ∧ _))

/-- `DateTime.eq`. -/
def DateTime.eq (dt other : DateTime) : Parse Bool :=
  if dt.year = other.year ∧ dt.month = other.month ∧ dt.day = other.day ∧ dt.hour = other.hour ∧
    dt.minute = other.minute ∧ dt.second = other.second ∧ dt.nanos = other.nanos then
    dt.tz.equals other.tz
  else .value false

/-- `DateTime.hash`. -/
def DateTime.hash (strHash : Text → Nat) (dt : DateTime) : Parse Nat := do
  .value (strHash (← dt.formatIso8601))

/-- The nanoseconds from the start of 1970 in UTC. No database tells the offset of a named zone. -/
def DateTime.instant (dt : DateTime) : Option Int :=
  dt.tz.offsetSeconds.map fun offset =>
    (dayNumber ⟨dt.year, dt.month, dt.day⟩ - 719468) * nanosPerDay + dt.hour * nanosPerHour +
      dt.minute * nanosPerMinute + dt.second * nanosPerSecond + dt.nanos - offset * nanosPerSecond

/-! ## Their equality -/

/-- A test returns on each two values, and it is an equivalence relation. -/
def Returns {A : Type} (eq : A → A → Parse Bool) : Prop :=
  ∃ test : A → A → Bool, Lawful test ∧ ∀ a b, eq a b = .value (test a b)

theorem toStr_value {tz : TimeZone} (htyped : tz.Typed) : ∃ text, tz.toStr = .value text := by
  cases tz with
  | utc => exact ⟨_, rfl⟩
  | namedTimeZone name => exact ⟨_, rfl⟩
  | fixedOffset seconds => exact offsetString_value htyped

theorem equals_eq {tz other : TimeZone} (htyped : tz.Typed) (htyped' : other.Typed) :
    tz.equals other = .value (decide (tz.toStr = other.toStr)) := by
  obtain ⟨text, htext⟩ := toStr_value htyped
  obtain ⟨text', htext'⟩ := toStr_value htyped'
  unfold TimeZone.equals
  rw [htext, Ending.value_bind, htext', Ending.value_bind]
  simp

theorem eq_eq {dt other : DateTime} (htyped : dt.tz.Typed) (htyped' : other.tz.Typed) :
    dt.eq other = .value (decide (dt.SameFields other ∧ dt.tz.toStr = other.tz.toStr)) := by
  unfold DateTime.eq
  split
  · rename_i hfields
    rw [equals_eq htyped htyped']
    have hsame : dt.SameFields other := hfields
    simp [hsame]
  · rename_i hfields
    have hsame : ¬dt.SameFields other := hfields
    simp [hsame]

/-- A zone of the source's type. -/
abbrev Zone := { tz : TimeZone // tz.Typed }

/-- A date-time whose zone is of the source's type. -/
abbrev Time := { dt : DateTime // dt.tz.Typed }

theorem zone_returns : Returns fun x y : Zone => x.1.eq y.1 :=
  ⟨fun x y => decide (x.1.toStr = y.1.toStr), lawful_image fun x : Zone => x.1.toStr,
    fun x y => equals_eq x.2 y.2⟩

theorem zone_hash {strHash : Text → Nat} {x y : Zone} (h : x.1.eq y.1 = .value true) :
    x.1.hash strHash = y.1.hash strHash := by
  have heq : x.1.toStr = y.1.toStr := by
    rw [TimeZone.eq, equals_eq x.2 y.2] at h
    exact of_decide_eq_true (Ending.value.inj h)
  unfold TimeZone.hash
  rw [heq]

theorem sameFields_equivalence : Equivalence DateTime.SameFields where
  refl _ := ⟨rfl, rfl, rfl, rfl, rfl, rfl, rfl⟩
  symm := by
    rintro _ _ ⟨h1, h2, h3, h4, h5, h6, h7⟩
    exact ⟨h1.symm, h2.symm, h3.symm, h4.symm, h5.symm, h6.symm, h7.symm⟩
  trans := by
    rintro _ _ _ ⟨h1, h2, h3, h4, h5, h6, h7⟩ ⟨g1, g2, g3, g4, g5, g6, g7⟩
    exact ⟨h1.trans g1, h2.trans g2, h3.trans g3, h4.trans g4, h5.trans g5, h6.trans g6,
      h7.trans g7⟩

theorem time_returns : Returns fun x y : Time => x.1.eq y.1 := by
  refine ⟨fun x y => decide (x.1.SameFields y.1 ∧ x.1.tz.toStr = y.1.tz.toStr), lawful_decide ?_,
    fun x y => eq_eq x.2 y.2⟩
  refine ⟨fun x => ⟨sameFields_equivalence.refl x.1, rfl⟩, fun h => ?_, fun h h' => ?_⟩
  · exact ⟨sameFields_equivalence.symm h.1, h.2.symm⟩
  · exact ⟨sameFields_equivalence.trans h.1 h'.1, h.2.trans h'.2⟩

/-- Zones that have one text and one instant at one local time are the same. -/
theorem zone_of_instant {dt other : DateTime} (htyped : dt.tz.Typed) (htyped' : other.tz.Typed)
    (hfields : dt.SameFields other) (htext : dt.tz.toStr = other.tz.toStr)
    (hinstant : dt.instant = other.instant) : dt.tz = other.tz := by
  obtain ⟨year, month, day, hour, minute, second, nanos, tz⟩ := dt
  obtain ⟨year', month', day', hour', minute', second', nanos', tz'⟩ := other
  obtain ⟨rfl, rfl, rfl, rfl, rfl, rfl, rfl⟩ := hfields
  have hsign : ∀ {seconds : Int}, (TimeZone.fixedOffset seconds).Typed →
      TimeZone.utc.toStr ≠ (TimeZone.fixedOffset seconds).toStr := by
    intro seconds htyped h
    obtain ⟨sign, rest, heq, hsign⟩ := offsetString_fixed htyped
    rw [show (TimeZone.fixedOffset seconds).toStr = .value (sign :: rest) from heq] at h
    cases h
    rcases hsign with h | h <;> cases h
  cases tz with
  | utc =>
    cases tz' with
    | utc => rfl
    | fixedOffset seconds => exact absurd htext (hsign htyped')
    | namedTimeZone name => cases hinstant
  | fixedOffset seconds =>
    cases tz' with
    | utc => exact absurd htext.symm (hsign htyped)
    | fixedOffset seconds' =>
      have hnanos := Option.some.inj hinstant
      have hoffset : seconds * nanosPerSecond = seconds' * nanosPerSecond := by
        dsimp only at hnanos
        omega
      rw [Int.eq_of_mul_eq_mul_right (by decide) hoffset]
    | namedTimeZone name => cases hinstant
  | namedTimeZone name =>
    cases tz' with
    | utc => cases hinstant
    | fixedOffset seconds => cases hinstant
    | namedTimeZone name' =>
      cases htext
      rfl

/-- Equal date-times have one hash and are one instant exactly when they have one zone. -/
theorem time_agrees_iff {strHash : Text → Nat} (x y : Time) :
    (x.1.eq y.1 = .value true →
      (∀ h h', x.1.hash strHash = .value h → y.1.hash strHash = .value h' → h = h') ∧
        x.1.instant = y.1.instant) ↔
    (x.1.SameFields y.1 → x.1.tz.toStr = y.1.tz.toStr → x.1.tz = y.1.tz) := by
  rw [eq_eq x.2 y.2]
  constructor
  · intro h hfields htext
    have heq : decide (x.1.SameFields y.1 ∧ x.1.tz.toStr = y.1.tz.toStr) = true :=
      decide_eq_true ⟨hfields, htext⟩
    rw [heq] at h
    exact zone_of_instant x.2 y.2 hfields htext (h rfl).2
  · intro h heq
    obtain ⟨hfields, htext⟩ := of_decide_eq_true (Ending.value.inj heq)
    have hzone := h hfields htext
    obtain ⟨⟨year, month, day, hour, minute, second, nanos, tz⟩, hx⟩ := x
    obtain ⟨⟨year', month', day', hour', minute', second', nanos', tz'⟩, hy⟩ := y
    obtain ⟨rfl, rfl, rfl, rfl, rfl, rfl, rfl⟩ := hfields
    cases hzone
    refine ⟨fun h h' hx hy => ?_, rfl⟩
    rw [hx] at hy
    exact Ending.value.inj hy

end stdlib.time
