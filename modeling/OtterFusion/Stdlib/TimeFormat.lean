-- `DateTime.format_iso8601` and `DateTime.parse_iso8601` (`std/time.otter`): which date-times the
-- text of the one carries to the other.
import OtterFusion.Stdlib.Civil
import OtterFusion.Stdlib.Numerals
import OtterFusion.Stdlib.TimeParses

open base.trapping base.calendar
open stdlib.net (decimal)

namespace stdlib.time

/-! ## `DateTime.format_iso8601` -/

/-- `__time_pad2`. -/
def timePad2 (n : Int) : Text := if n < 10 then '0' :: decimal n else decimal n

/-- One turn of `__time_pad9`. -/
def padTurn (out : Text) : Parse (Text ⊕ Text) :=
  if size out < 9 then .value (.inl ('0' :: out)) else .value (.inr out)

/-- `__time_pad9`. -/
def timePad9 (n : Int) : Parse Text := Ending.loop .outOfFuel padTurn 10 (decimal n)

/-- `TimeZone.offset_string`. -/
def TimeZone.offsetString : TimeZone → Parse Text
  | .utc => .value ['Z']
  | .fixedOffset seconds => do
    let sign := if seconds < 0 then '-' else '+'
    let abs ← (if seconds < 0 then i64 (0 - seconds) else .value seconds)
    let hours ← div abs 3600
    let minutes ← div (← rem abs 3600) 60
    .value (sign :: (timePad2 hours ++ ':' :: timePad2 minutes))
  | .namedTimeZone name => .value ('[' :: (name ++ [']']))

/-- `DateTime.format_iso8601`. -/
def DateTime.formatIso8601 (dt : DateTime) : Parse Text := do
  let date := decimal dt.year ++ '-' :: (timePad2 dt.month ++ '-' :: timePad2 dt.day)
  let time := timePad2 dt.hour ++ ':' :: (timePad2 dt.minute ++ ':' :: timePad2 dt.second)
  if dt.nanos = 0 then do
    .value (date ++ 'T' :: (time ++ (← dt.tz.offsetString)))
  else do
    let nanos ← timePad9 dt.nanos
    .value (date ++ 'T' :: (time ++ '.' :: (nanos ++ (← dt.tz.offsetString))))

/-- A value of the source's type: the offset is an `i32`. -/
def TimeZone.Typed : TimeZone → Prop
  | .fixedOffset seconds => -2 ^ 31 ≤ seconds ∧ seconds < 2 ^ 31
  | _ => True

/-- A date-time that `DateTime.new` accepts: the year is an `i32`, and no field is negative. -/
structure DateTime.Accepted (dt : DateTime) : Prop where
  year : YearFits dt.year
  nanos : 0 ≤ dt.nanos
  tz : dt.tz.Typed
  new : DateTime.new dt.year dt.month dt.day dt.hour dt.minute dt.second dt.nanos dt.tz = .value dt

/-- The date-times that a text carries: the year has four digits. -/
def DateTime.Carried (dt : DateTime) : Prop :=
  (1000 ≤ dt.year ∧ dt.year ≤ 9999) ∧ dt.tz.Carried

instance (dt : DateTime) : Decidable dt.Carried := inferInstanceAs (Decidable (_ ∧ _))

/-! ## Digits -/

/-- One character is read: a digit, or the error. -/
theorem lastDigit_one (c : Char) (message : String) : lastDigit [c] message =
    if c.isDigit = true then .value ((c.toNat : Int) - 48) else timeParseError message := by
  unfold lastDigit timeDigitValue
  dsimp only [List.foldl]
  simp only [← isDigit_iff]
  split
  · rename_i h
    have hrange := (isDigit_iff c).mp h
    rw [i64_ok (by omega) (by omega)]
    rfl
  · rfl

variable {s : Text}

/-- The characters from one place to the next. -/
theorem slice_one {pos : Nat} (hpos : pos < s.length) :
    (s.take (pos + 1)).drop pos = [s[pos]] := by
  rw [List.drop_take, List.drop_eq_getElem_cons hpos, Nat.add_sub_cancel_left]
  rfl

/-- One turn of `__time_parse_digits` reads a digit, or ends with the error. -/
theorem digitsTurn_eq {start count value i : Int} {message : String}
    (hsize : s.length + 24 < 2 ^ 63)
    (hstart : 0 ≤ start) (hi : 0 ≤ i) (hcount : i < count) (hvalue : 0 ≤ value)
    (hbound : value ≤ 10 ^ 8) (hfits : (start + i).toNat < s.length) :
    digitsTurn s start count message (value, i) =
      if s[(start + i).toNat].isDigit = true then
        .value (.inl (value * 10 + ((s[(start + i).toNat].toNat : Int) - 48), i + 1))
      else timeParseError message := by
  unfold digitsTurn
  dsimp only
  rw [if_pos hcount, i64_ok (by omega) (by omega), Ending.value_bind, Ending.value_bind,
    i64_ok (by omega) (by omega), Ending.value_bind,
    substring_ok (by omega) (by omega) (by unfold size; omega), Ending.value_bind,
    show (start + i + 1).toNat = (start + i).toNat + 1 by omega, slice_one hfits, lastDigit_one]
  split
  · rename_i hdigit
    have hrange := (isDigit_iff _).mp hdigit
    unfold codePoint at hrange
    rw [Ending.value_bind, i64_ok (by omega) (by omega), Ending.value_bind,
      i64_ok (by omega) (by omega), Ending.value_bind, i64_ok (by omega) (by omega),
      Ending.value_bind]
  · rfl

/-- The loop of `__time_parse_digits` over the characters that are left: digits, or the error. -/
theorem digitsLoop_eq {start count : Int} {message : String} (hsize : s.length + 24 < 2 ^ 63)
    (hstart : 0 ≤ start) (hcount : count ≤ 9) (hfits : start + count ≤ s.length) (k : Nat)
    {value i : Int} (hi : 0 ≤ i) (hk : i + k = count) (hvalue : 0 ≤ value)
    (hbound : value < 10 ^ i.toNat) :
    Ending.loop .outOfFuel (digitsTurn s start count message) (k + 1) (value, i) =
      if ((s.drop (start + i).toNat).take k).all Char.isDigit = true then
        .value (numeral ((s.drop (start + i).toNat).take k) value)
      else timeParseError message := by
  induction k generalizing value i with
  | zero =>
    unfold Ending.loop digitsTurn
    dsimp only
    rw [if_neg (by omega), List.take_zero]
    rfl
  | succ k ih =>
    have hlt : (start + i).toNat < s.length := by omega
    have hnine : (10 : Int) ^ i.toNat ≤ 10 ^ 8 := by
      have := Nat.pow_le_pow_right (n := 10) (by omega) (show i.toNat ≤ 8 by omega)
      exact_mod_cast this
    rw [List.drop_eq_getElem_cons hlt, List.take_succ_cons, List.all_cons,
      show (start + i).toNat + 1 = (start + (i + 1)).toNat by omega, Ending.loop,
      digitsTurn_eq hsize hstart hi (by omega) hvalue (by omega) hlt]
    by_cases hdigit : s[(start + i).toNat].isDigit = true
    · have hrange := (isDigit_iff _).mp hdigit
      unfold codePoint at hrange
      rw [if_pos hdigit, hdigit, Bool.true_and, Ending.value_bind]
      refine ih (by omega) (by omega) (by omega) ?_
      rw [show (i + 1).toNat = i.toNat + 1 by omega, pow_succ]
      omega
    · rw [if_neg hdigit, Bool.eq_false_iff.mpr hdigit, Bool.false_and, if_neg (by decide)]
      rfl

/-- `__time_parse_digits`: the digits between two places of the text, or the error. -/
theorem timeParseDigits_eq {start count : Nat} (message : String) (hsize : s.length + 24 < 2 ^ 63)
    (hcount : count ≤ 9) (hfits : start + count ≤ s.length) :
    timeParseDigits s start count message =
      if ((s.drop start).take count).all Char.isDigit = true then
        .value (numeral ((s.drop start).take count) 0)
      else timeParseError message := by
  have hloop := @digitsLoop_eq _ _ _ message hsize (Int.natCast_nonneg start)
    (show (count : Int) ≤ 9 by omega) (show (start + count : Int) ≤ s.length by omega) count
    0 0 (by omega) (by omega) (by omega) (by decide)
  rw [Int.add_zero, Int.toNat_natCast] at hloop
  unfold timeParseDigits size
  rw [if_neg (by omega), i64_bind (by omega), if_neg (by omega), Int.toNat_natCast]
  exact hloop

/-- `__time_expect` of one character. -/
theorem timeExpect_eq {pos : Nat} (c : Char) (message : String) (hsize : s.length + 24 < 2 ^ 63)
    (hpos : pos < s.length) : timeExpect s pos [c] message =
      if s[pos]? = some c then .value () else timeParseError message := by
  unfold timeExpect size
  rw [if_neg (by omega), List.length_singleton, i64_bind (by omega), if_neg (by omega),
    substring_ok (by omega) (by omega) (by unfold size; omega), Ending.value_bind,
    Int.toNat_natCast, show ((pos : Int) + ((1 : Nat) : Int)).toNat = pos + 1 by omega,
    slice_one hpos, List.getElem?_eq_getElem hpos]
  simp only [ne_eq, List.cons.injEq, and_true, ite_not, Option.some.injEq]

/-! ## Numbers as text -/

/-- Two digits. -/
theorem timePad2_spec {n : Int} (hn : 0 ≤ n) (hn' : n ≤ 99) :
    ∃ a b, timePad2 n = [a, b] ∧ (a.isDigit = true ∧ b.isDigit = true) ∧ numeral [a, b] 0 = n := by
  have hdigits := decimal_digits hn
  have hnumeral := numeral_decimal hn
  unfold timePad2
  split
  · obtain ⟨b, hb⟩ :=
      List.length_eq_one_iff.mp (decimal_length (n := n) (k := 0) (by omega) (by omega))
    rw [hb] at hdigits hnumeral ⊢
    exact ⟨'0', b, rfl, ⟨rfl, hdigits b (List.mem_singleton_self b)⟩, hnumeral⟩
  · obtain ⟨a, b, hab⟩ :=
      List.length_eq_two.mp (decimal_length (n := n) (k := 1) (.inr (by omega)) (by omega))
    rw [hab] at hdigits hnumeral ⊢
    exact ⟨a, b, rfl, ⟨hdigits a (by simp), hdigits b (by simp)⟩, hnumeral⟩

/-- Zeros in front do not change a number. -/
theorem numeral_zeros (k : Nat) (ds : Text) :
    numeral (List.replicate k '0' ++ ds) 0 = numeral ds 0 := by
  induction k with
  | zero => rfl
  | succ k ih =>
    rw [List.replicate_succ, List.cons_append, numeral_zero]
    exact ih

theorem padLoop_eq (k : Nat) {n : Nat} {out : Text} (h : out.length + k = 9) (hn : k < n) :
    Ending.loop .outOfFuel padTurn n out = .value (List.replicate k '0' ++ out) := by
  induction k generalizing n out with
  | zero =>
    obtain ⟨n, rfl⟩ := Nat.exists_eq_succ_of_ne_zero (Nat.ne_of_gt hn)
    rw [Ending.loop, padTurn, if_neg (by unfold size; omega)]
    rfl
  | succ k ih =>
    obtain ⟨n, rfl⟩ := Nat.exists_eq_succ_of_ne_zero (show n ≠ 0 by omega)
    rw [Ending.loop, padTurn, if_pos (by unfold size; omega), Ending.value_bind,
      List.replicate_succ', List.append_assoc]
    exact ih (by rw [List.length_cons]; omega) (by omega)

/-- Nine digits. -/
theorem timePad9_spec {n : Int} (hn : 0 ≤ n) (hn' : n ≤ 999999999) :
    ∃ ds, timePad9 n = .value ds ∧ ds.length = 9 ∧ (∀ c ∈ ds, c.isDigit = true) ∧
      numeral ds 0 = n := by
  have hlength := (decimal_length_le_iff hn (show 0 < 9 by omega)).mpr (by omega)
  refine ⟨_, padLoop_eq (9 - (decimal n).length) (by omega) (by omega), ?_, ?_, ?_⟩
  · rw [List.length_append, List.length_replicate]
    omega
  · intro c hc
    rcases List.mem_append.mp hc with hc | hc
    · rw [List.eq_of_mem_replicate hc]
      rfl
    · exact decimal_digits hn c hc
  · rw [numeral_zeros, numeral_decimal hn]

/-! ## A text of the format is read -/

theorem parseDigits_at {front ds rest : Text} {start : Int} (message : String)
    (hs : s = front ++ (ds ++ rest)) (hstart : start = front.length)
    (hsize : s.length + 24 < 2 ^ 63)
    (hlength : ds.length ≤ 9) (hds : ∀ c ∈ ds, c.isDigit = true) :
    timeParseDigits s start ds.length message = .value (numeral ds 0) := by
  have hslice : (s.drop front.length).take ds.length = ds := by
    rw [hs, List.drop_left, List.take_left]
  subst hstart
  rw [timeParseDigits_eq message hsize hlength, hslice, if_pos (List.all_eq_true.mpr hds)]
  rw [hs, List.length_append, List.length_append]
  omega

theorem expect_at {front rest : Text} {c : Char} {pos : Int} (message : String)
    (hs : s = front ++ c :: rest) (hpos : pos = front.length) (hsize : s.length + 24 < 2 ^ 63) :
    timeExpect s pos [c] message = .value () := by
  subst hpos
  rw [timeExpect_eq c message hsize, if_pos]
  · rw [hs, List.getElem?_append_right (Nat.le_refl _), Nat.sub_self, List.getElem?_cons_zero]
  · rw [hs, List.length_append, List.length_cons]
    omega

theorem fractionTurn_eq {pos : Nat} (hsize : s.length + 24 < 2 ^ 63) (hpos : pos < s.length) :
    fractionTurn s pos =
      if s[pos].isDigit = true then .value (.inl ((pos + 1 : Nat) : Int))
      else .value (.inr (pos : Int)) := by
  unfold fractionTurn
  rw [if_pos (by unfold size; omega), i64_ok (by omega) (by omega), Ending.value_bind,
    substring_ok (by omega) (by omega) (by unfold size; omega), Ending.value_bind,
    Int.toNat_natCast, show ((pos : Int) + 1).toNat = pos + 1 by omega, slice_one hpos]
  dsimp only [List.foldl]
  simp only [← isDigit_iff, decide_eq_true_eq]
  rfl

/-- The digits of a fraction are read up to a character that is no digit. -/
theorem fractionLoop_eq {front ds rest : Text} {z : Char} (hs : s = front ++ (ds ++ z :: rest))
    (hsize : s.length + 24 < 2 ^ 63) (hds : ∀ c ∈ ds, c.isDigit = true) (hz : z.isDigit = false)
    {n : Nat} (hn : ds.length < n) :
    Ending.loop .outOfFuel (fractionTurn s) n (front.length : Int) =
      .value ((front.length + ds.length : Nat) : Int) := by
  obtain ⟨n, rfl⟩ := Nat.exists_eq_succ_of_ne_zero (show n ≠ 0 by omega)
  induction ds generalizing front n with
  | nil =>
    have hat : s[front.length]? = some z := by
      rw [hs, List.getElem?_append_right (Nat.le_refl _), Nat.sub_self]
      rfl
    obtain ⟨hpos, hget⟩ := List.getElem?_eq_some_iff.mp hat
    rw [Ending.loop, fractionTurn_eq hsize hpos, hget, hz, if_neg (by decide)]
    rfl
  | cons c ds ih =>
    have hat : s[front.length]? = some c := by
      rw [hs, List.getElem?_append_right (Nat.le_refl _), Nat.sub_self]
      rfl
    obtain ⟨hpos, hget⟩ := List.getElem?_eq_some_iff.mp hat
    rw [List.length_cons] at hn
    obtain ⟨n, rfl⟩ := Nat.exists_eq_succ_of_ne_zero (show n ≠ 0 by omega)
    rw [Ending.loop, fractionTurn_eq hsize hpos, hget, if_pos (hds c (List.mem_cons_self ..))]
    have hnext := @ih (front ++ [c]) (by rw [hs, List.append_assoc]; rfl)
      (fun d hd => hds d (List.mem_cons_of_mem _ hd)) n (by omega)
    rw [List.length_append, List.length_singleton] at hnext
    rw [List.length_cons, Nat.add_comm ds.length, ← Nat.add_assoc]
    exact hnext

/-- The character at a place, as a text. -/
theorem substring_at {front rest : Text} {c : Char} {pos stop : Int} (hs : s = front ++ c :: rest)
    (hpos : pos = front.length) (hstop : stop = pos + 1) :
    (substring s pos stop : Parse Text) = .value [c] := by
  subst hpos hstop
  have hat : s[front.length]? = some c := by
    rw [hs, List.getElem?_append_right (Nat.le_refl _), Nat.sub_self]
    rfl
  obtain ⟨hlt, hget⟩ := List.getElem?_eq_some_iff.mp hat
  rw [substring_ok (by omega) (by omega) (by unfold size; omega), Int.toNat_natCast,
    show ((front.length : Int) + 1).toNat = front.length + 1 by omega, slice_one hlt, hget]

theorem parseFraction_none {front rest : Text} {z : Char} (hs : s = front ++ z :: rest)
    (hfront : front.length = 19) (hz : z ≠ '.') : parseFraction s = .value (0, 19) := by
  have hlong : s.length = 19 + (rest.length + 1) := by
    rw [hs, List.length_append, hfront, List.length_cons]
  unfold parseFraction
  dsimp only
  rw [if_pos (by unfold size; omega), i64_bind (by omega), substring_at hs (by omega) rfl,
    Ending.value_bind, Ending.value_bind, if_neg (by simpa using hz)]

theorem parseFraction_nine {front ds rest : Text} {z : Char}
    (hs : s = front ++ '.' :: (ds ++ z :: rest)) (hfront : front.length = 19)
    (hsize : s.length + 24 < 2 ^ 63) (hnine : ds.length = 9) (hds : ∀ c ∈ ds, c.isDigit = true)
    (hz : z.isDigit = false) : parseFraction s = .value (numeral ds 0, 29) := by
  have hs' : s = (front ++ ['.']) ++ (ds ++ z :: rest) := by
    rw [hs, List.append_assoc]
    rfl
  have hlong : s.length = 20 + (9 + (rest.length + 1)) := by
    rw [hs', List.length_append, List.length_append, List.length_append, hfront, hnine]
    rfl
  have hstart : ((front ++ ['.']).length : Int) = 20 := by
    rw [List.length_append, hfront]
    rfl
  have hloop := fractionLoop_eq (n := s.length + 1) hs' hsize hds hz (by omega)
  have hread :=
    parseDigits_at "expected fractional nanoseconds" hs' hstart.symm hsize (by omega) hds
  rw [hnine] at hloop hread
  rw [hstart] at hloop
  unfold parseFraction
  dsimp only
  rw [if_pos (by unfold size; omega), i64_ok (by omega) (by omega), Ending.value_bind,
    substring_at hs (by omega) rfl, Ending.value_bind, Ending.value_bind, if_pos (by decide),
    Ending.value_bind, show (19 : Int) + 1 = 20 from rfl, hloop, Ending.value_bind,
    i64_ok (by omega) (by omega), Ending.value_bind, if_neg (by omega),
    show (((front ++ ['.']).length + 9 : Nat) : Int) - 20 = ((9 : Nat) : Int) by omega, hread,
    Ending.value_bind]
  refine congrArg Ending.value (congrArg (Prod.mk _) ?_)
  omega

theorem parseTimeZone_utc {front : Text} {pos : Int} (hs : s = front ++ ['Z'])
    (hpos : pos = front.length) (hsize : s.length + 24 < 2 ^ 63) : parseTimeZone s pos =
      .value .utc := by
  have hlong : s.length = front.length + 1 := by
    rw [hs, List.length_append]
    rfl
  unfold parseTimeZone
  rw [if_neg (by unfold size; omega), i64_ok (by omega) (by omega), Ending.value_bind,
    substring_at hs hpos rfl, Ending.value_bind, if_pos rfl, Ending.value_bind,
    if_neg (by unfold size; omega)]

theorem parseTimeZone_named {front name : Text} {pos : Int}
    (hs : s = front ++ '[' :: (name ++ [']']))
    (hpos : pos = front.length) (hsize : s.length + 24 < 2 ^ 63) (hname : name ≠ []) :
    parseTimeZone s pos = .value (.namedTimeZone name) := by
  have hlong : s.length = front.length + (name.length + 1 + 1) := by
    rw [hs, List.length_append, List.length_cons, List.length_append]
    rfl
  have hpositive := List.length_pos_iff.mpr hname
  have hend : endsWith s [']'] = true := by
    refine List.isSuffixOf_iff_suffix.mpr ⟨front ++ '[' :: name, ?_⟩
    rw [hs, List.append_assoc]
    rfl
  have hinside : (s.take (front.length + 1 + name.length)).drop (front.length + 1) = name := by
    rw [List.drop_take, Nat.add_sub_cancel_left, hs, ← List.singleton_append,
      ← List.append_assoc front, List.drop_left' (by rw [List.length_append]; rfl), List.take_left]
  unfold parseTimeZone
  rw [if_neg (by unfold size; omega), i64_ok (by omega) (by omega), Ending.value_bind,
    substring_at hs hpos rfl, Ending.value_bind, if_neg (by decide), if_neg (by decide),
    if_pos rfl, hend, if_neg (by decide), i64_ok (by unfold size; omega) (by unfold size; omega),
    Ending.value_bind, Ending.value_bind, if_neg (by unfold size; omega), Ending.value_bind,
    Ending.value_bind,
    substring_ok (by omega) (by unfold size; omega) (by unfold size; omega),
    show (pos + 1).toNat = front.length + 1 by omega,
    show (size s - 1).toNat = front.length + 1 + name.length by unfold size; omega, hinside]
  rfl

theorem two_digits {a b : Char} (h : a.isDigit = true ∧ b.isDigit = true) :
    ∀ c ∈ [a, b], c.isDigit = true := by
  intro c hc
  rcases List.mem_cons.mp hc with rfl | hc
  · exact h.1
  · rw [List.mem_singleton.mp hc]
    exact h.2

theorem parseOffset_at {front : Text} {pos : Int} {sign a b c d : Char} {k : Int}
    (hs : s = front ++ sign :: [a, b, ':', c, d]) (hpos : pos = front.length)
    (hsize : s.length + 24 < 2 ^ 63) (hk : k = 1 ∨ k = -1)
    (hhours : a.isDigit = true ∧ b.isDigit = true) (hhours' : numeral [a, b] 0 ≤ 23)
    (hminutes : c.isDigit = true ∧ d.isDigit = true) (hminutes' : numeral [c, d] 0 ≤ 59) :
    parseOffset s pos k =
      .value (.fixedOffset (k * (numeral [a, b] 0 * 3600 + numeral [c, d] 0 * 60))) := by
  have hlong : s.length = front.length + 6 := by
    rw [hs, List.length_append]
    rfl
  have hlo := (numeral_bounds (two_digits hhours) (Int.le_refl 0)).1
  have hlo' := (numeral_bounds (two_digits hminutes) (Int.le_refl 0)).1
  have hhour := @parseDigits_at s (front ++ [sign]) [a, b] [':', c, d] (pos + 1)
    "expected timezone hour" (by rw [hs, List.append_assoc]; rfl)
    (by rw [List.length_append, hpos]; rfl) hsize (by simp) (two_digits hhours)
  have hcolon := @expect_at s (front ++ [sign, a, b]) [c, d] ':' (pos + 3)
    "expected timezone separator" (by rw [hs, List.append_assoc]; rfl)
    (by rw [List.length_append, hpos]; rfl) hsize
  have hminute := @parseDigits_at s (front ++ [sign, a, b, ':']) [c, d] [] (pos + 4)
    "expected timezone minute" (by rw [hs, List.append_assoc]; rfl)
    (by rw [List.length_append, hpos]; rfl) hsize (by simp) (two_digits hminutes)
  rw [show (([a, b].length : Nat) : Int) = 2 from rfl] at hhour
  rw [show (([c, d].length : Nat) : Int) = 2 from rfl] at hminute
  generalize numeral [a, b] 0 = hours at *
  generalize numeral [c, d] 0 = minutes at *
  have hcast : asI32 (k * (hours * 3600 + minutes * 60)) = k * (hours * 3600 + minutes * 60) := by
    unfold asI32
    rcases hk with rfl | rfl <;> omega
  unfold parseOffset
  rw [i64_bind (by omega), if_neg (by unfold size; omega), i64_bind (by omega), hhour,
    Ending.value_bind, i64_bind (by omega), hcolon, Ending.value_bind, i64_bind (by omega),
    hminute, Ending.value_bind, if_neg (by omega), i64_bind (by omega), i64_bind (by omega),
    i64_bind (by omega),
    i64_ok (by rcases hk with rfl | rfl <;> omega) (by rcases hk with rfl | rfl <;> omega),
    Ending.value_bind, hcast]

theorem parseTimeZone_offset {front : Text} {pos : Int} {sign a b c d : Char}
    (hs : s = front ++ sign :: [a, b, ':', c, d]) (hpos : pos = front.length)
    (hsize : s.length + 24 < 2 ^ 63) (hsign : sign = '+' ∨ sign = '-')
    (hhours : a.isDigit = true ∧ b.isDigit = true) (hhours' : numeral [a, b] 0 ≤ 23)
    (hminutes : c.isDigit = true ∧ d.isDigit = true) (hminutes' : numeral [c, d] 0 ≤ 59) :
    parseTimeZone s pos = .value (.fixedOffset ((if sign = '-' then -1 else 1) *
      (numeral [a, b] 0 * 3600 + numeral [c, d] 0 * 60))) := by
  have hlong : s.length = front.length + 6 := by
    rw [hs, List.length_append]
    rfl
  unfold parseTimeZone
  rw [if_neg (by unfold size; omega), i64_bind (by omega), substring_at hs hpos rfl,
    Ending.value_bind]
  rcases hsign with rfl | rfl
  · rw [if_neg (by decide), if_pos (by decide), if_neg (by decide), if_neg (by decide)]
    exact parseOffset_at hs hpos hsize (.inl rfl) hhours hhours' hminutes hminutes'
  · rw [if_neg (by decide), if_pos (by decide), if_pos (by decide), if_pos (by decide)]
    exact parseOffset_at hs hpos hsize (.inr rfl) hhours hhours' hminutes hminutes'

/-- The zone of a text that carries it is read. -/
theorem offsetString_read {tz : TimeZone} (htyped : tz.Typed) (hcarried : tz.Carried) :
    ∃ z rest, tz.offsetString = .value (z :: rest) ∧ z.isDigit = false ∧ z ≠ '.' ∧
      ∀ (s front : Text) (pos : Int), s = front ++ z :: rest → pos = front.length →
        s.length + 24 < 2 ^ 63 → parseTimeZone s pos = .value tz := by
  cases tz with
  | utc =>
    exact ⟨'Z', [], rfl, rfl, by decide, fun s front pos hs hpos hsize =>
      parseTimeZone_utc hs hpos hsize⟩
  | namedTimeZone name =>
    exact ⟨'[', name ++ [']'], rfl, rfl, by decide, fun s front pos hs hpos hsize =>
      parseTimeZone_named hs hpos hsize hcarried⟩
  | fixedOffset seconds =>
    obtain ⟨⟨hlo, hhi⟩, hminute⟩ := hcarried
    have habs : ∃ abs : Int,
        (if seconds < 0 then i64 (0 - seconds) else .value seconds : Parse Int) =
        .value abs ∧ seconds = (if seconds < 0 then -1 else 1) * abs ∧ (0 ≤ abs ∧ abs < 86400) ∧
        abs % 60 = 0 := by
      split
      · exact ⟨0 - seconds, i64_ok (by omega) (by omega), by omega, by omega, by omega⟩
      · exact ⟨seconds, rfl, by omega, by omega, by omega⟩
    obtain ⟨abs, habs, hseconds, ⟨hlo', hhi'⟩, hminute'⟩ := habs
    obtain ⟨a, b, hab, habDigits, habValue⟩ :=
      timePad2_spec (n := abs / 3600) (by omega) (by omega)
    obtain ⟨c, d, hcd, hcdDigits, hcdValue⟩ :=
      timePad2_spec (n := abs % 3600 / 60) (by omega) (by omega)
    have hsum : numeral [a, b] 0 * 3600 + numeral [c, d] 0 * 60 = abs := by omega
    refine ⟨if seconds < 0 then '-' else '+', [a, b, ':', c, d], ?_, ?_, ?_, ?_⟩
    · unfold TimeZone.offsetString
      dsimp only
      rw [habs, Ending.value_bind, div_bind ⟨hlo', by omega, by omega⟩,
        rem_bind ⟨hlo', by omega, by omega⟩, div_bind (by omega), hab, hcd]
      rfl
    · split <;> rfl
    · split <;> decide
    · intro s front pos hs hpos hsize
      have hsign : (if (if seconds < 0 then '-' else '+') = '-' then -1 else 1 : Int) =
          if seconds < 0 then -1 else 1 := by
        split <;> rfl
      rw [parseTimeZone_offset hs hpos hsize (by split <;> simp) habDigits (by omega) hcdDigits
        (by omega), hsum, hsign, ← hseconds]

/-- The fields before the fraction are read. -/
theorem parseIso8601_fields {y0 y1 y2 y3 m0 m1 d0 d1 h0 h1 i0 i1 s0 s1 : Char} {rest : Text}
    (hs : s = [y0, y1, y2, y3, '-', m0, m1, '-', d0, d1, 'T', h0, h1, ':', i0, i1, ':', s0, s1] ++
      rest)
    (hrest : rest ≠ []) (hsize : s.length + 24 < 2 ^ 63)
    (hy : ∀ c ∈ [y0, y1, y2, y3], c.isDigit = true) (hm : m0.isDigit = true ∧ m1.isDigit = true)
    (hd : d0.isDigit = true ∧ d1.isDigit = true) (hh : h0.isDigit = true ∧ h1.isDigit = true)
    (hi : i0.isDigit = true ∧ i1.isDigit = true) (hsec : s0.isDigit = true ∧ s1.isDigit = true) :
    parseIso8601 s = (do
      let (nanos, pos) ← parseFraction s
      let tz ← parseTimeZone s pos
      DateTime.new (asI32 (numeral [y0, y1, y2, y3] 0)) (asUnsigned 8 (numeral [m0, m1] 0))
        (asUnsigned 8 (numeral [d0, d1] 0)) (asUnsigned 8 (numeral [h0, h1] 0))
        (asUnsigned 8 (numeral [i0, i1] 0)) (asUnsigned 8 (numeral [s0, s1] 0))
        (asUnsigned 32 nanos) tz) := by
  have hlong : s.length = 19 + rest.length := by
    rw [hs, List.length_append]
    rfl
  have hpositive := List.length_pos_iff.mpr hrest
  have htwo : ∀ (front : Text) (a b : Char) (back : Text) (start : Int) (message : String),
      s = front ++ ([a, b] ++ back) → start = front.length →
        a.isDigit = true ∧ b.isDigit = true →
          timeParseDigits s start 2 message = .value (numeral [a, b] 0) :=
    fun front a b back start message hback hstart hab =>
      parseDigits_at message hback hstart hsize (by simp) (two_digits hab)
  unfold parseIso8601
  rw [if_neg (by unfold size; omega),
    show timeParseDigits s 0 4 "expected year" = .value (numeral [y0, y1, y2, y3] 0) from
      @parseDigits_at _ [] [y0, y1, y2, y3] _ _ _ hs rfl hsize (by simp) hy,
    Ending.value_bind, @expect_at _ [y0, y1, y2, y3] _ _ 4 _ hs rfl hsize,
    Ending.value_bind, htwo [y0, y1, y2, y3, '-'] m0 m1 _ 5 _ hs rfl hm, Ending.value_bind,
    @expect_at _ [y0, y1, y2, y3, '-', m0, m1] _ _ 7 _ hs rfl hsize,
    Ending.value_bind, htwo [y0, y1, y2, y3, '-', m0, m1, '-'] d0 d1 _ 8 _ hs rfl hd,
    Ending.value_bind,
    @expect_at _ [y0, y1, y2, y3, '-', m0, m1, '-', d0, d1] _ _ 10 _ hs rfl hsize,
    Ending.value_bind, htwo [y0, y1, y2, y3, '-', m0, m1, '-', d0, d1, 'T'] h0 h1 _ 11 _ hs rfl hh,
    Ending.value_bind,
    @expect_at _ [y0, y1, y2, y3, '-', m0, m1, '-', d0, d1, 'T', h0, h1] _ _ 13 _ hs
      rfl hsize,
    Ending.value_bind,
    htwo [y0, y1, y2, y3, '-', m0, m1, '-', d0, d1, 'T', h0, h1, ':'] i0 i1 _ 14 _ hs rfl hi,
    Ending.value_bind,
    @expect_at _ [y0, y1, y2, y3, '-', m0, m1, '-', d0, d1, 'T', h0, h1, ':', i0, i1] _ _ 16
      _ hs rfl hsize,
    Ending.value_bind,
    htwo [y0, y1, y2, y3, '-', m0, m1, '-', d0, d1, 'T', h0, h1, ':', i0, i1, ':'] s0 s1 _ 17 _ hs
      rfl hsec,
    Ending.value_bind]

/-! ## The date-times that the text carries -/

theorem DateTime.new_value {year month day hour minute second nanos : Int} {tz : TimeZone}
    {dt : DateTime} (h : DateTime.new year month day hour minute second nanos tz = .value dt) :
    dt = ⟨year, month, day, hour, minute, second, nanos, tz⟩ ∧ (1 ≤ month ∧ month ≤ 12) ∧
      (1 ≤ day ∧ day ≤ 31) ∧ (0 ≤ hour ∧ hour ≤ 23) ∧ (0 ≤ minute ∧ minute ≤ 59) ∧
      (0 ≤ second ∧ second ≤ 59) ∧ nanos ≤ 999999999 := by
  have hlong : daysInMonth year month ≤ 31 := by
    unfold daysInMonth
    split_ifs <;> omega
  unfold DateTime.new timeParseError at h
  split_ifs at h
  cases h
  exact ⟨rfl, by omega, by omega, by omega, by omega, by omega, by omega⟩

theorem four_digits {ds : Text} (h : ds.length = 4) : ∃ a b c d, ds = [a, b, c, d] := by
  rcases ds with _ | ⟨a, _ | ⟨b, _ | ⟨c, _ | ⟨d, _ | ⟨e, ds⟩⟩⟩⟩⟩ <;> simp at h
  exact ⟨a, b, c, d, rfl⟩

/-- A date-time that the text carries is read again. -/
theorem parseIso8601_format {dt : DateTime} (hdt : dt.Accepted) (hcarried : dt.Carried) {s : Text}
    (hs : dt.formatIso8601 = .value s) (hsize : s.length + 24 < 2 ^ 63) : parseIso8601 s =
      .value dt := by
  obtain ⟨⟨hyear, hyear'⟩, hzone⟩ := hcarried
  obtain ⟨_, hmonth, hday, hhour, hminute, hsecond, hnanos⟩ := DateTime.new_value hdt.new
  obtain ⟨y0, y1, y2, y3, hy⟩ :=
    four_digits (decimal_length (n := dt.year) (k := 3) (.inr (by omega)) (by omega))
  obtain ⟨m0, m1, hm, hmDigits, hmValue⟩ := timePad2_spec (n := dt.month) (by omega) (by omega)
  obtain ⟨d0, d1, hd, hdDigits, hdValue⟩ := timePad2_spec (n := dt.day) (by omega) (by omega)
  obtain ⟨h0, h1, hh, hhDigits, hhValue⟩ := timePad2_spec (n := dt.hour) (by omega) (by omega)
  obtain ⟨i0, i1, hi, hiDigits, hiValue⟩ := timePad2_spec (n := dt.minute) (by omega) (by omega)
  obtain ⟨s0, s1, hsec, hsecDigits, hsecValue⟩ :=
    timePad2_spec (n := dt.second) (by omega) (by omega)
  have hyDigits := decimal_digits (n := dt.year) (by omega)
  have hyValue := numeral_decimal (n := dt.year) (by omega)
  rw [hy] at hyDigits hyValue
  obtain ⟨z, rest, hz, hzDigit, hzDot, hzRead⟩ := offsetString_read hdt.tz hzone
  have hcasts : asUnsigned 8 dt.month = dt.month ∧ asUnsigned 8 dt.day = dt.day ∧
      asUnsigned 8 dt.hour = dt.hour ∧ asUnsigned 8 dt.minute = dt.minute ∧
      asUnsigned 8 dt.second = dt.second ∧ asUnsigned 32 dt.nanos = dt.nanos := by
    unfold asUnsigned
    have := hdt.nanos
    omega
  obtain ⟨cm, cd, ch, ci, cs, cn⟩ := hcasts
  unfold DateTime.formatIso8601 at hs
  dsimp only at hs
  rw [hy, hm, hd, hh, hi, hsec] at hs
  by_cases hzero : dt.nanos = 0
  · rw [if_pos hzero, hz, Ending.value_bind] at hs
    injection hs with hs
    have hs : s = [y0, y1, y2, y3, '-', m0, m1, '-', d0, d1, 'T', h0, h1, ':', i0, i1, ':', s0,
      s1] ++ z :: rest := hs.symm
    rw [parseIso8601_fields hs (List.cons_ne_nil _ _) hsize hyDigits hmDigits hdDigits hhDigits
      hiDigits hsecDigits, parseFraction_none hs rfl hzDot, Ending.value_bind]
    dsimp only
    rw [hzRead s _ 19 hs rfl hsize, Ending.value_bind, hyValue, hmValue, hdValue, hhValue,
      hiValue, hsecValue, asI32_of_fits hdt.year, cm, cd, ch, ci, cs, ← hzero, cn]
    exact hdt.new
  · obtain ⟨ds, hds, hnine, hdsDigits, hdsValue⟩ := timePad9_spec hdt.nanos hnanos
    rw [if_neg hzero, hds, Ending.value_bind, hz, Ending.value_bind] at hs
    injection hs with hs
    have hs : s = [y0, y1, y2, y3, '-', m0, m1, '-', d0, d1, 'T', h0, h1, ':', i0, i1, ':', s0,
      s1] ++ '.' :: (ds ++ z :: rest) := hs.symm
    rw [parseIso8601_fields hs (List.cons_ne_nil _ _) hsize hyDigits hmDigits hdDigits hhDigits
      hiDigits hsecDigits, parseFraction_nine hs rfl hsize hnine hdsDigits hzDigit,
      Ending.value_bind]
    dsimp only
    have hfront : s = ([y0, y1, y2, y3, '-', m0, m1, '-', d0, d1, 'T', h0, h1, ':', i0, i1, ':', s0,
        s1] ++ '.' :: ds) ++ z :: rest := by
      rw [hs, List.append_assoc]
      rfl
    have hplace :
        (29 : Int) = (([y0, y1, y2, y3, '-', m0, m1, '-', d0, d1, 'T', h0, h1, ':', i0, i1,
        ':', s0, s1] ++ '.' :: ds : Text).length : Int) := by
      simp [hnine]
    rw [hzRead s _ 29 hfront hplace hsize, Ending.value_bind, hyValue, hmValue, hdValue, hhValue,
      hiValue, hsecValue, hdsValue, asI32_of_fits hdt.year, cm, cd, ch, ci, cs, cn]
    exact hdt.new

/-- The text of an offset starts with its sign. -/
theorem offsetString_fixed {seconds : Int} (htyped : (TimeZone.fixedOffset seconds).Typed) :
    ∃ sign rest, (TimeZone.fixedOffset seconds).offsetString = .value (sign :: rest) ∧
      (sign = '+' ∨ sign = '-') := by
  obtain ⟨hlo, hhi⟩ := htyped
  have habs : ∃ abs : Int, (if seconds < 0 then i64 (0 - seconds) else .value seconds : Parse Int) =
      .value abs ∧ 0 ≤ abs ∧ abs ≤ 2 ^ 31 := by
    split
    · exact ⟨0 - seconds, i64_ok (by omega) (by omega), by omega, by omega⟩
    · exact ⟨seconds, rfl, by omega, by omega⟩
  obtain ⟨abs, habs, hlo', hhi'⟩ := habs
  unfold TimeZone.offsetString
  dsimp only
  rw [habs, Ending.value_bind, div_bind ⟨hlo', by omega, by omega⟩,
    rem_bind ⟨hlo', by omega, by omega⟩, div_bind (by omega)]
  refine ⟨_, _, rfl, ?_⟩
  split
  · exact .inr rfl
  · exact .inl rfl

theorem offsetString_value {tz : TimeZone} (htyped : tz.Typed) : ∃ z,
    tz.offsetString = .value z := by
  cases tz with
  | utc => exact ⟨_, rfl⟩
  | namedTimeZone name => exact ⟨_, rfl⟩
  | fixedOffset seconds =>
    obtain ⟨sign, rest, h, _⟩ := offsetString_fixed htyped
    exact ⟨_, h⟩

/-- The text starts with the year. -/
theorem formatIso8601_value {dt : DateTime} (hdt : dt.Accepted) :
    ∃ rest, dt.formatIso8601 = .value (decimal dt.year ++ '-' :: rest) := by
  obtain ⟨z, hz⟩ := offsetString_value hdt.tz
  obtain ⟨ds, hds, _⟩ := timePad9_spec hdt.nanos (DateTime.new_value hdt.new).2.2.2.2.2.2
  unfold DateTime.formatIso8601
  dsimp only
  rw [hz]
  split
  · exact ⟨_, congrArg Ending.value (List.append_assoc ..)⟩
  · rw [hds, Ending.value_bind, Ending.value_bind]
    exact ⟨_, congrArg Ending.value (List.append_assoc ..)⟩

/-- What is read starts with four digits and a dash, and its zone is one that a text carries. -/
theorem parseIso8601_value {s : Text} {dt : DateTime} (h : parseIso8601 s = .value dt)
    (hsize : s.length + 24 < 2 ^ 63) :
    (s.take 4).all Char.isDigit = true ∧ s[4]? = some '-' ∧ dt.tz.Carried := by
  unfold parseIso8601 at h
  split at h
  · cases h
  rename_i hlong
  unfold size at hlong
  obtain ⟨year, hyear, h⟩ := Ending.value_of_bind.mp h
  obtain ⟨_, hdash, h⟩ := Ending.value_of_bind.mp h
  obtain ⟨month, _, h⟩ := Ending.value_of_bind.mp h
  obtain ⟨_, _, h⟩ := Ending.value_of_bind.mp h
  obtain ⟨day, _, h⟩ := Ending.value_of_bind.mp h
  obtain ⟨_, _, h⟩ := Ending.value_of_bind.mp h
  obtain ⟨hour, _, h⟩ := Ending.value_of_bind.mp h
  obtain ⟨_, _, h⟩ := Ending.value_of_bind.mp h
  obtain ⟨minute, _, h⟩ := Ending.value_of_bind.mp h
  obtain ⟨_, _, h⟩ := Ending.value_of_bind.mp h
  obtain ⟨second, _, h⟩ := Ending.value_of_bind.mp h
  obtain ⟨⟨nanos, pos⟩, hfraction, h⟩ := Ending.value_of_bind.mp h
  obtain ⟨tz, htz, h⟩ := Ending.value_of_bind.mp h
  refine ⟨?_, ?_, ?_⟩
  · rw [show (0 : Int) = ((0 : Nat) : Int) from rfl, show (4 : Int) = ((4 : Nat) : Int) from rfl,
      timeParseDigits_eq _ hsize (by omega) (by omega)] at hyear
    split at hyear
    · rename_i hdigits
      exact hdigits
    · cases hyear
  · rw [show (4 : Int) = ((4 : Nat) : Int) from rfl, timeExpect_eq _ _ hsize (by omega)] at hdash
    split at hdash
    · rename_i hat
      exact hat
    · cases hdash
  · have hpos := (parseFraction_ends (s := s) (by omega) (by omega)).of_value hfraction
    rw [(DateTime.new_value h).1]
    exact (parseTimeZone_ends (by omega) hpos.1).of_value htz

/-- Four digits and a dash after a number: it has four digits. -/
theorem year_of_four_digits {year : Int} {rest : Text}
    (hdigits : ((decimal year ++ '-' :: rest).take 4).all Char.isDigit = true)
    (hdash : (decimal year ++ '-' :: rest)[4]? = some '-') : 1000 ≤ year ∧ year ≤ 9999 := by
  have hdigit := List.all_eq_true.mp hdigits
  have hyear : 0 ≤ year := by
    by_contra hneg
    obtain ⟨ds, hds⟩ := decimal_negative (Int.not_le.mp hneg)
    rw [hds] at hdigit
    exact absurd (hdigit '-' (List.mem_cons_self ..)) (by decide)
  have hthree : ¬(decimal year).length ≤ 3 := by
    intro hle
    have hat : ((decimal year ++ '-' :: rest).take 4)[(decimal year).length]? = some '-' := by
      rw [List.getElem?_take_of_lt (by omega), List.getElem?_append_right (Nat.le_refl _),
        Nat.sub_self]
      rfl
    exact absurd (hdigit '-' (List.mem_of_getElem? hat)) (by decide)
  have hfour : (decimal year).length ≤ 4 := by
    by_contra hlong
    rw [List.getElem?_append_left (by omega)] at hdash
    exact absurd (decimal_digits hyear '-' (List.mem_of_getElem? hdash)) (by decide)
  rw [decimal_length_le_iff hyear (by omega)] at hthree hfour
  omega

/-- A date-time is read from its own text exactly when its year has four digits and its offset, if
it has one, is less than a day and has no seconds, and its zone's name, if it has one, is not empty.
-/
theorem parse_of_format_iff {dt : DateTime} (hdt : dt.Accepted) :
    ∃ text, dt.formatIso8601 = .value text ∧
      ∀ s : Str, s.text = text → (parseIso8601 s.text = .value dt ↔ dt.Carried) := by
  obtain ⟨rest, hformat⟩ := formatIso8601_value hdt
  refine ⟨_, hformat, fun s hs => ?_⟩
  have hsize : s.text.length + 24 < 2 ^ 63 := by
    have := length_le_byteSize s.text
    have := s.fits
    omega
  constructor
  · intro h
    obtain ⟨hdigits, hdash, htz⟩ := parseIso8601_value h hsize
    rw [hs] at hdigits hdash
    exact ⟨year_of_four_digits hdigits hdash, htz⟩
  · intro h
    rw [← hs] at hformat
    exact parseIso8601_format hdt h hformat hsize

/-- A leap day with nanoseconds, to the west of UTC. -/
theorem parse_of_format_iff_at :
    ∃ text, DateTime.formatIso8601 ⟨2024, 2, 29, 23, 59, 58, 123456789, .fixedOffset (-12600)⟩ =
      .value text ∧ ∀ s : Str, s.text = text →
        (parseIso8601 s.text = .value ⟨2024, 2, 29, 23, 59, 58, 123456789, .fixedOffset (-12600)⟩ ↔
          DateTime.Carried ⟨2024, 2, 29, 23, 59, 58, 123456789, .fixedOffset (-12600)⟩) :=
  parse_of_format_iff ⟨by decide, by decide, ⟨by decide, by decide⟩, by decide⟩

/-- The year 999 is printed with three digits, and the text is not read. -/
theorem text_of_the_year_999 :
    DateTime.Accepted ⟨999, 1, 1, 0, 0, 0, 0, .utc⟩ ∧
      DateTime.formatIso8601 ⟨999, 1, 1, 0, 0, 0, 0, .utc⟩ =
        .value "999-01-01T00:00:00Z".toList ∧
      parseIso8601 "999-01-01T00:00:00Z".toList = timeParseError "expected ISO-8601 datetime" :=
  ⟨⟨by decide, by decide, trivial, by decide⟩, by decide, by decide⟩

end stdlib.time
