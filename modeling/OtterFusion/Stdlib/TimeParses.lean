-- `DateTime.parse_iso8601` never panics: it counts in characters, as its cuts do, and checks each
-- offset before it cuts there.
import OtterFusion.Stdlib.Time

open base.trapping

namespace stdlib.time

/-- Any value and any error. -/
def Anyway {A E : Type} (x : Run E A) : Prop := x.Ends (fun _ => True) (fun _ => True)

theorem anyway_iff {A E : Type} {x : Run E A} : Anyway x ↔ x.Safe := by
  constructor
  · exact Ending.Ends.safe
  · intro h
    exact Ending.ends_of_safe h (fun _ _ => trivial) (fun _ _ => trivial)

variable {s : Text}

theorem timeDigitValue_ends (ch : Char) :
    (timeDigitValue ch).Ends (fun v => 0 ≤ v ∧ v ≤ 9) (fun _ => True) := by
  unfold timeDigitValue
  dsimp only
  split
  · rename_i h
    rw [i64_ok (by omega) (by omega)]
    exact ⟨by omega, by omega⟩
  · trivial

theorem lastDigit_ends (one : Text) (message : String) :
    (lastDigit one message).Ends (fun v => 0 ≤ v ∧ v ≤ 9) (fun _ => True) := by
  have hfold : ∀ (one : Text) (start : Parse Int),
      start.Ends (fun v => 0 ≤ v ∧ v ≤ 9) (fun _ => True) →
        (one.foldl (fun _ ch => timeDigitValue ch) start).Ends (fun v => 0 ≤ v ∧ v ≤ 9)
          (fun _ => True) := by
    intro one
    induction one with
    | nil => exact fun _ h => h
    | cons c one ih => exact fun _ _ => ih _ (timeDigitValue_ends c)
  have hlast := hfold one (timeParseError message) trivial
  unfold lastDigit
  cases h : one.foldl (fun _ ch => timeDigitValue ch) (timeParseError message) with
  | value v => exact hlast.of_value h
  | error e => trivial
  | trap t =>
    rw [h] at hlast
    exact hlast

/-- Up to nine digits are a number below `10 ^ 9`. -/
theorem timeParseDigits_ends {start count : Int} (message : String) (hsize : s.length + 24 < 2 ^ 63)
    (hstart : 0 ≤ start) (hstart' : start ≤ s.length) (hcount : 0 ≤ count) (hcount' : count ≤ 9) :
    (timeParseDigits s start count message).Ends (fun v => 0 ≤ v ∧ v < 10 ^ 9) (fun _ => True) := by
  unfold timeParseDigits
  rw [if_neg (by omega)]
  refine ends_i64 (by omega) (by omega) ?_
  split
  · trivial
  rename_i hfits
  refine Ending.loop_ends (I := fun p => 0 ≤ p.2 ∧ p.2 ≤ count ∧ 0 ≤ p.1 ∧ p.1 < 10 ^ p.2.toNat)
    (m := fun p => (count - p.2).toNat) ?_ ⟨by omega, hcount, by omega, by decide⟩ (by omega)
  rintro ⟨value, i⟩ ⟨hi, hic, hvalue, hbound⟩
  dsimp only at hi hic hvalue hbound
  have hnine : (10 : Int) ^ i.toNat ≤ 10 ^ 9 := by
    have := Nat.pow_le_pow_right (n := 10) (by omega) (show i.toNat ≤ 9 by omega)
    exact_mod_cast this
  unfold digitsTurn
  dsimp only
  split
  · rename_i hlt
    unfold size at hfits
    refine ends_i64 (by omega) (by omega) ?_
    refine ends_i64 (by omega) (by omega) ?_
    refine ends_i64 (by omega) (by omega) ?_
    refine ends_substring (by omega) (by omega) (by unfold size; omega) ?_
    refine (lastDigit_ends _ message).bind fun digit hdigit => ?_
    refine ends_i64 (by omega) (by omega) ?_
    refine ends_i64 (by omega) (by omega) ?_
    refine ends_i64 (by omega) (by omega) ?_
    refine ⟨⟨by dsimp only; omega, by dsimp only; omega, by dsimp only; omega, ?_⟩,
      by dsimp only; omega⟩
    dsimp only
    rw [show (i + 1).toNat = i.toNat + 1 by omega, pow_succ]
    omega
  · rename_i hnot
    refine ⟨hvalue, lt_of_lt_of_le hbound hnine⟩

theorem timeExpect_anyway {pos : Int} (token : Text) (message : String)
    (hsize : s.length + 24 < 2 ^ 63) (hpos : pos ≤ s.length) (htoken : token.length = 1) :
    Anyway (timeExpect s pos token message) := by
  unfold timeExpect
  split
  · trivial
  rename_i hneg
  unfold size
  refine ends_i64 (by omega) (by omega) ?_
  split
  · trivial
  rename_i hfits
  refine ends_substring (by omega) (by omega) (by unfold size; omega) ?_
  split
  · trivial
  · trivial

/-- The fraction ends inside the text. -/
theorem parseFraction_ends (hsize : s.length + 24 < 2 ^ 63) (hlong : 20 ≤ s.length) :
    (parseFraction s).Ends (fun r => 19 ≤ r.2 ∧ r.2 ≤ s.length) (fun _ => True) := by
  unfold parseFraction size
  rw [if_pos (by omega)]
  dsimp only
  refine ends_i64 (by omega) (by omega) ?_
  refine ends_substring (by omega) (by omega) (by unfold size; omega) ?_
  rw [Ending.value_bind]
  split
  · refine ends_i64 (by omega) (by omega) ?_
    have hloop : (Ending.loop .outOfFuel (fractionTurn s) (s.length + 1) (19 + 1)).Ends
        (fun pos => 20 ≤ pos ∧ pos ≤ s.length) (fun _ => True) := by
      refine Ending.loop_ends (I := fun pos : Int => 20 ≤ pos ∧ pos ≤ s.length)
        (m := fun pos => ((s.length : Int) - pos).toNat) ?_ ?_ ?_
      · rintro pos ⟨hlo, hhi⟩
        unfold fractionTurn size
        split
        · rename_i hlt
          refine ends_i64 (by omega) (by omega) ?_
          refine ends_substring (by omega) (by omega) (by unfold size; omega) ?_
          dsimp only
          split
          · refine ends_i64 (by omega) (by omega) ?_
            exact ⟨⟨by omega, by omega⟩, by omega⟩
          · exact ⟨hlo, hhi⟩
        · exact ⟨hlo, hhi⟩
      · exact ⟨by omega, by omega⟩
      · omega
    refine hloop.bind fun pos hpos => ?_
    refine ends_i64 (by omega) (by omega) ?_
    split
    · trivial
    rename_i hdigits
    refine (timeParseDigits_ends _ hsize (by omega) (by omega) (by omega) (by omega)).bind
      fun nanos hnanos => ?_
    have hscale : (Ending.loop .outOfFuel scaleTurn 10 (nanos, pos - (19 + 1))).Ends
        (fun _ => True) (fun _ : TimeError => True) := by
      refine Ending.loop_ends
        (I := fun p => 1 ≤ p.2 ∧ p.2 ≤ 9 ∧ 0 ≤ p.1 ∧ p.1 < 10 ^ 9 * 10 ^ p.2.toNat)
        (m := fun p => (9 - p.2).toNat) ?_ ⟨by dsimp only; omega, by dsimp only; omega,
          hnanos.1, ?_⟩ (by dsimp only; omega)
      · rintro ⟨value, digits⟩ ⟨hlo, hhi, hvalue, hbound⟩
        dsimp only at hlo hhi hvalue hbound
        unfold scaleTurn
        dsimp only
        split
        · rename_i hlt
          have hpow : (10 : Int) ^ digits.toNat ≤ 10 ^ 8 := by
            have := Nat.pow_le_pow_right (n := 10) (by omega) (show digits.toNat ≤ 8 by omega)
            exact_mod_cast this
          refine ends_i64 (by omega) (by omega) ?_
          refine ends_i64 (by omega) (by omega) ?_
          refine ⟨⟨by dsimp only; omega, by dsimp only; omega, by dsimp only; omega, ?_⟩,
            by dsimp only; omega⟩
          dsimp only
          rw [show (digits + 1).toNat = digits.toNat + 1 by omega, pow_succ]
          omega
        · trivial
      · have hone : (1 : Int) ≤ 10 ^ (pos - (19 + 1)).toNat := by
          exact_mod_cast Nat.one_le_pow _ 10 (by omega)
        dsimp only
        omega
    exact hscale.bind fun n _ => ⟨by dsimp only; omega, by dsimp only; omega⟩
  · exact ⟨by dsimp only; omega, by dsimp only; omega⟩

/-- The zones that a text carries: whole minutes of less than a day, and names that are not empty.
-/
def TimeZone.Carried : TimeZone → Prop
  | .utc => True
  | .fixedOffset seconds => (-86400 < seconds ∧ seconds < 86400) ∧ seconds % 60 = 0
  | .namedTimeZone name => name ≠ []

instance (tz : TimeZone) : Decidable tz.Carried :=
  match tz with
  | .utc => inferInstanceAs (Decidable True)
  | .fixedOffset _ => inferInstanceAs (Decidable (_ ∧ _))
  | .namedTimeZone _ => inferInstanceAs (Decidable (_ ≠ _))

theorem parseOffset_ends {pos sign : Int} (hsize : s.length + 24 < 2 ^ 63) (hpos : 0 ≤ pos)
    (hpos' : pos < s.length) (hsign : sign = -1 ∨ sign = 1) :
    (parseOffset s pos sign).Ends TimeZone.Carried (fun _ => True) := by
  unfold parseOffset size
  refine ends_i64 (by omega) (by omega) ?_
  split
  · trivial
  rename_i hend
  refine ends_i64 (by omega) (by omega) ?_
  refine (timeParseDigits_ends _ hsize (by omega) (by omega) (by omega) (by omega)).bind
    fun oh hoh => ?_
  refine ends_i64 (by omega) (by omega) ?_
  refine (timeExpect_anyway [':'] _ hsize (by omega) rfl).bind fun _ _ => ?_
  refine ends_i64 (by omega) (by omega) ?_
  refine (timeParseDigits_ends _ hsize (by omega) (by omega) (by omega) (by omega)).bind
    fun om hom => ?_
  split
  · trivial
  refine ends_i64 (by omega) (by omega) ?_
  refine ends_i64 (by omega) (by omega) ?_
  refine ends_i64 (by omega) (by omega) ?_
  have hcast : ∀ n : Int, -86400 < n → n < 86400 → asI32 n = n := by
    intro n hlo hhi
    unfold asI32
    omega
  rcases hsign with rfl | rfl
  · rw [i64_bind (by omega), hcast _ (by omega) (by omega)]
    exact ⟨⟨by omega, by omega⟩, by omega⟩
  · rw [i64_bind (by omega), hcast _ (by omega) (by omega)]
    exact ⟨⟨by omega, by omega⟩, by omega⟩

theorem parseTimeZone_ends {pos : Int} (hsize : s.length + 24 < 2 ^ 63) (hpos : 19 ≤ pos) :
    (parseTimeZone s pos).Ends TimeZone.Carried (fun _ => True) := by
  unfold parseTimeZone size
  split
  · trivial
  rename_i hlt
  refine ends_i64 (by omega) (by omega) ?_
  refine ends_substring (by omega) (by omega) (by unfold size; omega) ?_
  split
  · refine ends_i64 (by omega) (by omega) ?_
    split
    · trivial
    · trivial
  split
  · refine parseOffset_ends hsize (by omega) (by omega) ?_
    split
    · exact .inl rfl
    · exact .inr rfl
  split
  · split
    · trivial
    refine ends_i64 (by omega) (by omega) ?_
    refine ends_i64 (by omega) (by omega) ?_
    split
    · trivial
    rename_i hname
    refine ends_i64 (by omega) (by omega) ?_
    refine ends_i64 (by omega) (by omega) ?_
    refine ends_substring (by omega) (by omega) (by unfold size; omega) ?_
    refine List.ne_nil_of_length_pos ?_
    rw [List.length_drop, List.length_take]
    omega
  · trivial

/-- `DateTime.parse_iso8601` never panics. -/
theorem parseIso8601_safe (s : Str) : (parseIso8601 s.text).Safe := by
  have hsize : s.text.length + 24 < 2 ^ 63 := by
    have := length_le_byteSize s.text
    have := s.fits
    omega
  unfold parseIso8601
  split
  · exact Ending.safe_error _
  rename_i hlong
  unfold size at hlong
  have hdigits : ∀ (start count : Int) (message : String), 0 ≤ start → start ≤ 19 → 0 ≤ count →
      count ≤ 9 → Anyway (timeParseDigits s.text start count message) :=
    fun start count message h0 h1 h2 h3 =>
      (timeParseDigits_ends message hsize h0 (by omega) h2 h3).mono (fun _ _ => trivial)
        (fun _ _ => trivial)
  have hexpect : ∀ (pos : Int) (c : Char) (message : String), pos ≤ 19 →
      Anyway (timeExpect s.text pos [c] message) :=
    fun pos c message h => timeExpect_anyway [c] message hsize (by omega) rfl
  rw [← anyway_iff]
  refine (hdigits 0 4 _ (by omega) (by omega) (by omega) (by omega)).bind fun year _ => ?_
  refine (hexpect 4 _ _ (by omega)).bind fun _ _ => ?_
  refine (hdigits 5 2 _ (by omega) (by omega) (by omega) (by omega)).bind fun month _ => ?_
  refine (hexpect 7 _ _ (by omega)).bind fun _ _ => ?_
  refine (hdigits 8 2 _ (by omega) (by omega) (by omega) (by omega)).bind fun day _ => ?_
  refine (hexpect 10 _ _ (by omega)).bind fun _ _ => ?_
  refine (hdigits 11 2 _ (by omega) (by omega) (by omega) (by omega)).bind fun hour _ => ?_
  refine (hexpect 13 _ _ (by omega)).bind fun _ _ => ?_
  refine (hdigits 14 2 _ (by omega) (by omega) (by omega) (by omega)).bind fun minute _ => ?_
  refine (hexpect 16 _ _ (by omega)).bind fun _ _ => ?_
  refine (hdigits 17 2 _ (by omega) (by omega) (by omega) (by omega)).bind fun second _ => ?_
  refine (parseFraction_ends hsize (by omega)).bind fun r hr => ?_
  refine (parseTimeZone_ends hsize hr.1).bind fun tz _ => ?_
  unfold DateTime.new
  split_ifs <;> trivial

end stdlib.time
